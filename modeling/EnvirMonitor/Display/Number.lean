import EnvirMonitor.Display.CharacterRun

/-! `OLED_ShowNum`: the digits of a number by division, with the zeros in front of it left blank. -/

namespace EnvirMonitor.Display
open Machine Prog

def mathPowLoop (x : U8) : ℕ → U32 → U32
  | 0, result => result
  | turns + 1, result => mathPowLoop x turns (result * x.setWidth 32)

def mathPow (x n : U8) : U32 := mathPowLoop x n.toNat 1

/-- `tempNum` of the place `n`. A division by zero has no result. -/
def digitAt (num : U32) (n : U8) : Option U8 :=
  if mathPow 10 n = 0 then none else some ((num / mathPow 10 n % 10).setWidth 8)

/-- The character for a digit that is or is not before the last one, and `showflag` behind it. -/
def suppress (showflag : U8) (before : Bool) (tempNum : U8) : U8 × U8 :=
  if showflag = 0 ∧ before then
    if tempNum = 0 then (0x20, showflag) else (tempNum + 0x30, 1)
  else (tempNum + 0x30, showflag)

def showNumLoop (font : Font) (x y mode size len : U8) (num : U32) : ℕ → U8 → U8 → Oled Unit
  | 0, _, _ => pure ()
  | turns + 1, t, showflag =>
    (digitAt num (len - t - 1)).elim spin fun tempNum => do
      let cell := suppress showflag (decide (t.toNat + 1 < len.toNat)) tempNum
      oledShowChar font (x + size / 2 * t) y mode size cell.1
      showNumLoop font x y mode size len num turns (t + 1) cell.2

def oledShowNum (font : Font) (x y mode size len : U8) (num : U32) : Oled Unit :=
  showNumLoop font x y mode size len num len.toNat 0 0

/-! ## Powers of ten in 32 bits -/

def wrappedPow (k : ℕ) : ℕ := 10 ^ k % 2 ^ 32

theorem toNat_mathPowLoop (x : U8) (turns : ℕ) (result : U32) :
    (mathPowLoop x turns result).toNat = result.toNat * x.toNat ^ turns % 2 ^ 32 := by
  induction turns generalizing result with
  | zero =>
    rw [pow_zero, Nat.mul_one]
    exact (Nat.mod_eq_of_lt result.isLt).symm
  | succ turns ih =>
    have hx : x.toNat % 2 ^ 32 = x.toNat := Nat.mod_eq_of_lt (x.isLt.trans (by norm_num))
    rw [mathPowLoop, ih, BitVec.toNat_mul, BitVec.toNat_setWidth, hx, Nat.mod_mul_mod,
      pow_succ' x.toNat, mul_assoc]

theorem toNat_mathPow {k : ℕ} (hk : k < 256) :
    (mathPow 10 (BitVec.ofNat 8 k)).toNat = wrappedPow k := by
  unfold mathPow wrappedPow
  rw [toNat_mathPowLoop, toNat_ofNat_of_lt hk]
  show 1 * 10 ^ k % 2 ^ 32 = _
  rw [Nat.one_mul]

theorem wrappedPow_of_lt {k : ℕ} (hk : k < 10) : wrappedPow k = 10 ^ k := by
  unfold wrappedPow
  apply Nat.mod_eq_of_lt
  calc 10 ^ k ≤ 10 ^ 9 := Nat.pow_le_pow_right (by norm_num) (Nat.le_of_lt_succ hk)
    _ < 2 ^ 32 := by norm_num

/-- The smallest of them is the one of `10^14`. -/
theorem le_wrappedPow {k : ℕ} (hk : 10 ≤ k) (hlast : k ≤ 20) : 276447232 ≤ wrappedPow k := by
  unfold wrappedPow
  interval_cases k <;> norm_num

theorem wrappedPow_pos {k : ℕ} (hk : k ≤ 20) : 0 < wrappedPow k := by
  rcases Nat.lt_or_ge k 10 with h | h
  · rw [wrappedPow_of_lt h]
    exact Nat.pow_pos (by norm_num)
  · exact lt_of_lt_of_le (by norm_num) (le_wrappedPow h hk)

/-! ## The characters -/

def digit (num : U32) (k : ℕ) : U8 := BitVec.ofNat 8 (num.toNat / wrappedPow k % 10)

def numberChars (num : U32) : ℕ → U8 → List U8
  | 0, _ => []
  | k + 1, showflag =>
    let cell := suppress showflag (decide (0 < k)) (digit num k)
    cell.1 :: numberChars num k cell.2

def numberCall (x y size : U8) (cell : U8 × ℕ) : CharCall :=
  ⟨false, x + size / 2 * BitVec.ofNat 8 cell.2, y, cell.1⟩

def numberCalls (x y size : U8) (num : U32) (len : ℕ) : List CharCall :=
  (numberChars num len 0).zipIdx.map (numberCall x y size)

theorem toNat_digit (num : U32) (k : ℕ) : (digit num k).toNat = num.toNat / wrappedPow k % 10 := by
  unfold digit
  exact toNat_ofNat_of_lt ((Nat.mod_lt _ (by norm_num)).trans (by norm_num))

theorem digit_lt (num : U32) (k : ℕ) : (digit num k).toNat < 10 := by
  rw [toNat_digit]
  exact Nat.mod_lt _ (by norm_num)

theorem digit_eq_zero_iff (num : U32) (k : ℕ) :
    digit num k = 0 ↔ num.toNat / wrappedPow k % 10 = 0 := by
  rw [← BitVec.toNat_inj, toNat_digit]
  rfl

theorem digitAt_ofNat (num : U32) {k : ℕ} (hk : k ≤ 20) :
    digitAt num (BitVec.ofNat 8 k) = some (digit num k) := by
  have hpow : (mathPow 10 (BitVec.ofNat 8 k)).toNat = wrappedPow k := toNat_mathPow (by omega)
  have hpos := wrappedPow_pos hk
  have hne : mathPow 10 (BitVec.ofNat 8 k) ≠ 0 := by
    intro hzero
    rw [hzero] at hpow
    exact absurd hpow (Nat.ne_of_lt hpos)
  rw [digitAt, if_neg hne]
  apply congrArg some
  apply BitVec.eq_of_toNat_eq
  rw [toNat_digit, BitVec.toNat_setWidth, BitVec.toNat_umod, BitVec.toNat_udiv, hpow]
  show num.toNat / wrappedPow k % 10 % 2 ^ 8 = _
  exact Nat.mod_eq_of_lt ((Nat.mod_lt _ (by norm_num)).trans (by norm_num))

theorem length_numberChars (num : U32) (k : ℕ) (showflag : U8) :
    (numberChars num k showflag).length = k := by
  induction k generalizing showflag with
  | zero => rfl
  | succ k ih => rw [numberChars, List.length_cons, ih]

/-! ## The program -/

/-- `len-t-1` for the cell that `turns` more follow. -/
theorem place_eq {len : U8} {t turns : ℕ} (ht : t + (turns + 1) = len.toNat) :
    len - BitVec.ofNat 8 t - 1 = BitVec.ofNat 8 turns := by
  rw [sub_sub, sub_eq_iff_eq_add, ofNat_add_one, ← BitVec.ofNat_add]
  apply BitVec.eq_of_toNat_eq
  rw [toNat_ofNat_of_lt (by omega)]
  omega

theorem showNumLoop_eq (font : Font) (x y mode size : U8) {len : U8} (hlen : len.toNat ≤ 21)
    (num : U32) {turns t : ℕ} (ht : t + turns = len.toNat) (showflag : U8) :
    showNumLoop font x y mode size len num turns (BitVec.ofNat 8 t) showflag =
      forEach (CharCall.draw font mode size)
        (((numberChars num turns showflag).zipIdx t).map (numberCall x y size)) := by
  induction turns generalizing t showflag with
  | zero => rfl
  | succ turns ih =>
    have ht8 : (BitVec.ofNat 8 t).toNat = t := toNat_ofNat_of_lt (by omega)
    have hbefore : t + 1 < len.toNat ↔ 0 < turns := by omega
    rw [showNumLoop, place_eq ht, digitAt_ofNat num (by omega), Option.elim_some, ht8,
      decide_eq_decide.mpr hbefore, ofNat_add_one]
    show (oledShowChar font _ y mode size _ >>= fun _ =>
      showNumLoop font x y mode size len num turns (BitVec.ofNat 8 (t + 1)) _) = _
    rw [ih (by omega)]
    rfl

theorem oledShowNum_eq (font : Font) (x y mode size : U8) {len : U8} (hlen : len.toNat ≤ 21)
    (num : U32) :
    oledShowNum font x y mode size len num =
      forEach (CharCall.draw font mode size) (numberCalls x y size num len.toNat) :=
  showNumLoop_eq font x y mode size hlen num (Nat.zero_add _) 0

/-! ## A field of decimal digits -/

def numerals (n : ℕ) : List U8 := (Nat.toDigits 10 n).map fun c => BitVec.ofNat 8 c.toNat

def placeChar (n k : ℕ) : U8 :=
  if n < 10 ^ k ∧ 0 < k then 0x20 else BitVec.ofNat 8 (n / 10 ^ k % 10) + 0x30

theorem numerals_digit {n : ℕ} (hn : n < 10) : numerals n = [BitVec.ofNat 8 n + 0x30] := by
  interval_cases n <;> rfl

theorem numerals_step {n : ℕ} (hn : 10 ≤ n) :
    numerals n = numerals (n / 10) ++ numerals (n % 10) := by
  unfold numerals
  rw [Nat.toDigits_of_base_le (by norm_num) hn, List.map_append,
    Nat.toDigits_of_lt_base (Nat.mod_lt _ (by norm_num))]

theorem placeChar_last (n : ℕ) : placeChar n 0 = BitVec.ofNat 8 (n % 10) + 0x30 := by
  rw [placeChar, if_neg fun h => absurd h.2 (Nat.lt_irrefl 0), pow_zero, Nat.div_one]

theorem placeChar_succ {n : ℕ} (hn : 10 ≤ n) (k : ℕ) : placeChar n (k + 1) = placeChar (n / 10) k := by
  have hlt : n < 10 ^ (k + 1) ∧ 0 < k + 1 ↔ n / 10 < 10 ^ k ∧ 0 < k := by
    rw [pow_succ, Nat.div_lt_iff_lt_mul (by norm_num), and_iff_left (Nat.succ_pos k)]
    constructor
    · intro h
      refine ⟨h, Nat.pos_of_ne_zero fun hk => ?_⟩
      rw [hk, pow_zero] at h
      omega
    · exact fun h => h.1
  unfold placeChar
  rw [pow_succ', ← Nat.div_div_eq_div_mul, ← pow_succ']
  exact if_congr hlt rfl rfl

theorem leftpad_numerals {n len : ℕ} (hlen : 0 < len) (hn : n < 10 ^ len) :
    (numerals n).leftpad len 0x20 = ((List.range len).map (placeChar n)).reverse := by
  induction len generalizing n with
  | zero => exact absurd hlen (Nat.lt_irrefl 0)
  | succ len ih =>
    rw [List.range_succ_eq_map, List.map_cons, List.map_map, List.reverse_cons, placeChar_last]
    rcases Nat.lt_or_ge n 10 with hsmall | hbig
    · have hblank : placeChar n ∘ Nat.succ = fun _ => 0x20 := by
        funext k
        apply if_pos
        exact ⟨hsmall.trans_le (Nat.le_self_pow (Nat.succ_ne_zero k) 10), Nat.succ_pos k⟩
      rw [numerals_digit hsmall, Nat.mod_eq_of_lt hsmall, hblank, List.map_const',
        List.length_range, List.reverse_replicate]
      rfl
    · have hpos : 0 < len := by
        apply Nat.pos_of_ne_zero
        rintro rfl
        omega
      have hdiv : n / 10 < 10 ^ len := by
        rw [Nat.div_lt_iff_lt_mul (by norm_num), ← pow_succ]
        exact hn
      have hplaces : placeChar n ∘ Nat.succ = placeChar (n / 10) := funext (placeChar_succ hbig)
      rw [hplaces, ← ih hpos hdiv, numerals_step hbig, numerals_digit (Nat.mod_lt n (by norm_num))]
      unfold List.leftpad
      rw [List.length_append, List.length_singleton, Nat.add_sub_add_right, List.append_assoc]

/-! ## The last ten places -/

theorem suppress_zero (tempNum : U8) :
    suppress 0 true tempNum = if tempNum = 0 then (0x20, 0) else (tempNum + 0x30, 1) :=
  if_pos ⟨rfl, rfl⟩

theorem suppress_last (showflag tempNum : U8) :
    suppress showflag false tempNum = (tempNum + 0x30, showflag) :=
  if_neg fun h => absurd h.2 Bool.false_ne_true

theorem suppress_one (before : Bool) (tempNum : U8) :
    suppress 1 before tempNum = (tempNum + 0x30, 1) :=
  if_neg fun h => absurd h.1 (by decide)

/-- `showflag` while the place `k` is still to come and the powers are exact. -/
def begun (n k : ℕ) : U8 := if n < 10 ^ k then 0 else 1

theorem placeChar_begun {n k : ℕ} (h : 10 ^ k ≤ n) :
    placeChar n k = BitVec.ofNat 8 (n / 10 ^ k % 10) + 0x30 :=
  if_neg fun hblank => absurd hblank.1 (not_lt.mpr h)

theorem digit_eq_ofNat (num : U32) {k : ℕ} (hk : k < 10) :
    digit num k = BitVec.ofNat 8 (num.toNat / 10 ^ k % 10) := by
  rw [digit, wrappedPow_of_lt hk]

theorem suppress_begun (num : U32) {k : ℕ} (hk : k < 10) (hpos : 0 < k) :
    suppress (begun num.toNat (k + 1)) true (digit num k) =
      (placeChar num.toNat k, begun num.toNat k) := by
  have hpow : 10 ^ k < 10 ^ (k + 1) := Nat.pow_lt_pow_succ (by norm_num)
  rcases Nat.lt_or_ge num.toNat (10 ^ k) with hblank | hdigit
  · have hzero : digit num k = 0 := by
      rw [digit_eq_ofNat num hk, Nat.div_eq_of_lt hblank]
      rfl
    have hthis : begun num.toNat k = 0 := if_pos hblank
    have hflag : begun num.toNat (k + 1) = 0 := if_pos (hblank.trans hpow)
    rw [hflag, hthis, suppress_zero, if_pos hzero, placeChar, if_pos ⟨hblank, hpos⟩]
  · have hthis : begun num.toNat k = 1 := if_neg (not_lt.mpr hdigit)
    rw [hthis, placeChar_begun hdigit, ← digit_eq_ofNat num hk]
    rcases Nat.lt_or_ge num.toNat (10 ^ (k + 1)) with hfirst | hlater
    · have hflag : begun num.toNat (k + 1) = 0 := if_pos hfirst
      have hquot : 0 < num.toNat / 10 ^ k := Nat.div_pos hdigit (Nat.pow_pos (by norm_num))
      have hten : num.toNat / 10 ^ k < 10 := by
        rw [Nat.div_lt_iff_lt_mul (Nat.pow_pos (by norm_num)), ← pow_succ']
        exact hfirst
      have hne : digit num k ≠ 0 := by
        rw [Ne, digit_eq_zero_iff, wrappedPow_of_lt hk, Nat.mod_eq_of_lt hten]
        exact hquot.ne'
      rw [hflag, suppress_zero, if_neg hne]
    · have hflag : begun num.toNat (k + 1) = 1 := if_neg (not_lt.mpr hlater)
      rw [hflag, suppress_one]

theorem numberChars_begun (num : U32) {k : ℕ} (hk : k ≤ 10) :
    numberChars num k (begun num.toNat k) =
      ((List.range k).map (placeChar num.toNat)).reverse := by
  induction k with
  | zero => rfl
  | succ k ih =>
    rw [List.range_succ, List.map_append, List.reverse_append, ← ih (Nat.le_of_succ_le hk),
      numberChars]
    rcases Nat.eq_zero_or_pos k with rfl | hpos
    · have hlast : digit num 0 + 0x30 = placeChar num.toNat 0 := by
        rw [placeChar_last, digit_eq_ofNat num hk, pow_zero, Nat.div_one]
      rw [decide_eq_false (Nat.lt_irrefl 0), suppress_last, hlast]
      rfl
    · rw [decide_eq_true hpos, suppress_begun num hk hpos]
      rfl

/-! ## Places whose power does not fit in 32 bits -/

theorem suppress_blank_iff (num : U32) (k : ℕ) :
    (suppress 0 true (digit num k)).1 = 0x20 ↔ digit num k = 0 := by
  have hlt := digit_lt num k
  rw [suppress_zero]
  split_ifs with hzero
  · exact iff_of_true rfl hzero
  · apply iff_of_false _ hzero
    intro hchr
    have hchr := congrArg BitVec.toNat hchr
    rw [BitVec.toNat_add] at hchr
    change ((digit num k).toNat + 48) % 256 = 32 at hchr
    omega

theorem numberChars_blank_iff (num : U32) (m : ℕ) :
    numberChars num (10 + m) 0 = List.replicate m 0x20 ++ numberChars num 10 0 ↔
      ∀ k, 10 ≤ k → k < 10 + m → num.toNat / wrappedPow k % 10 = 0 := by
  induction m with
  | zero => exact iff_of_true rfl fun k hk hlt => absurd hk (not_le.mpr hlt)
  | succ m ih =>
    have hbefore : 0 < 10 + m := Nat.add_pos_left (by norm_num) m
    rw [← Nat.add_assoc, numberChars, decide_eq_true hbefore, List.replicate_succ, List.cons_append,
      List.cons.injEq, suppress_blank_iff, digit_eq_zero_iff]
    constructor
    · rintro ⟨hzero, hrest⟩ k hk hlt
      rw [suppress_zero, if_pos ((digit_eq_zero_iff num _).mpr hzero)] at hrest
      rcases Nat.lt_succ_iff_lt_or_eq.mp hlt with hlow | rfl
      · exact ih.mp hrest k hk hlow
      · exact hzero
    · intro h
      have hzero := h (10 + m) (Nat.le_add_right 10 m) (Nat.lt_succ_self _)
      refine ⟨hzero, ?_⟩
      rw [suppress_zero, if_pos ((digit_eq_zero_iff num _).mpr hzero)]
      exact ih.mpr fun k hk hlt => h k hk (hlt.trans (Nat.lt_succ_self _))

/-- The number is less than every power of ten in 32 bits that does not fit into them. -/
def BelowWrapped (num : U32) (len : ℕ) : Prop := ∀ k, 10 ≤ k → k < len → num.toNat < wrappedPow k

theorem zero_places_iff (num : U32) {len : ℕ} (hlen : len ≤ 21) :
    (∀ k, 10 ≤ k → k < len → num.toNat / wrappedPow k % 10 = 0) ↔ BelowWrapped num len := by
  constructor
  · intro h k hk hlt
    have hnum := num.isLt
    have hten : wrappedPow 10 = 1410065408 := by norm_num [wrappedPow]
    have hfirst := h 10 le_rfl (hk.trans_lt hlt)
    rw [hten] at hfirst
    have hbelow : num.toNat < 1410065408 := by omega
    have hpow := le_wrappedPow hk (Nat.le_of_lt_succ (hlt.trans_le hlen))
    have hquot : num.toNat / wrappedPow k < 10 := by
      rw [Nat.div_lt_iff_lt_mul (wrappedPow_pos (Nat.le_of_lt_succ (hlt.trans_le hlen)))]
      omega
    have hzero := h k hk hlt
    rw [Nat.mod_eq_of_lt hquot] at hzero
    rcases Nat.div_eq_zero_iff.mp hzero with hpow0 | hnumlt
    · omega
    · exact hnumlt
  · intro h k hk hlt
    rw [Nat.div_eq_of_lt (h k hk hlt)]

theorem num_lt_ten_pow (num : U32) : num.toNat < 10 ^ 10 := num.isLt.trans (by norm_num)

theorem numberChars_ten (num : U32) : numberChars num 10 0 = (numerals num.toNat).leftpad 10 0x20 := by
  have hflag : begun num.toNat 10 = 0 := if_pos (num_lt_ten_pow num)
  rw [leftpad_numerals (by norm_num) (num_lt_ten_pow num), ← numberChars_begun num le_rfl, hflag]

theorem leftpad_add (xs : List U8) {n : ℕ} (hxs : xs.length ≤ n) (m : ℕ) (a : U8) :
    xs.leftpad (n + m) a = List.replicate m a ++ xs.leftpad n a := by
  have hlen : n + m - xs.length = m + (n - xs.length) := by omega
  unfold List.leftpad
  rw [hlen, List.replicate_add, List.append_assoc]

theorem length_numerals_le (num : U32) : (numerals num.toNat).length ≤ 10 := by
  unfold numerals
  rw [List.length_map]
  exact (Nat.length_toDigits_le_iff (by norm_num) (by norm_num)).mpr (num_lt_ten_pow num)

theorem numberChars_iff {num : U32} {len : ℕ} (hpos : 0 < len) (hlen : len ≤ 21)
    (hnum : num.toNat < 10 ^ len) :
    numberChars num len 0 = (numerals num.toNat).leftpad len 0x20 ↔ BelowWrapped num len := by
  rcases Nat.le_total len 10 with hle | hge
  · have hflag : begun num.toNat len = 0 := if_pos hnum
    apply iff_of_true
    · rw [leftpad_numerals hpos hnum, ← numberChars_begun num hle, hflag]
    · exact fun k hk hlt => absurd (hlt.trans_le hle) (not_lt.mpr hk)
  · obtain ⟨m, rfl⟩ := Nat.exists_eq_add_of_le hge
    rw [leftpad_add _ (length_numerals_le num), ← numberChars_ten, numberChars_blank_iff,
      zero_places_iff num hlen]

/-! ## The field on the screen -/

/-- From column `x` on, each cell shows the glyph of its character, and all else is as before. -/
structure FieldPainted (font : Font) (x : ℕ) (y mode size : U8) (chars : List U8)
    (before after : Picture) : Prop where
  cell : ∀ t (h : t < chars.length), ∀ i < size.toNat / 2, ∀ j < size.toNat, ∀ p : Fin 128 × Fin 64,
    (p.1 : ℕ) = x + t * (size.toNat / 2) + i → (p.2 : ℕ) = y.toNat + j →
      after p = if font.bit size (chars.get ⟨t, h⟩) i j then decide (mode ≠ 0) else !decide (mode ≠ 0)
  rest : ∀ p : Fin 128 × Fin 64, (¬ ∃ i < chars.length * (size.toNat / 2), ∃ j < size.toNat,
    (p.1 : ℕ) = x + i ∧ (p.2 : ℕ) = y.toNat + j) → after p = before p

theorem FieldPainted.nil (font : Font) (x : ℕ) (y mode size : U8) (before : Picture) :
    FieldPainted font x y mode size [] before before :=
  ⟨fun _ h => absurd h (Nat.not_lt_zero _), fun _ _ => rfl⟩

theorem FieldPainted.cons {font : Font} {x y mode size chr : U8} {chars : List U8}
    {before mid after : Picture} (hfirst : Painted font x y mode size chr before mid)
    (hrest : FieldPainted font (x.toNat + size.toNat / 2) y mode size chars mid after) :
    FieldPainted font x.toNat y mode size (chr :: chars) before after := by
  constructor
  · intro t ht i hi j hj p hx hy
    cases t with
    | zero =>
      rw [Nat.zero_mul, Nat.add_zero] at hx
      rw [hrest.rest p, hfirst.cell i hi j hj p hx hy]
      · rfl
      · rintro ⟨i', -, j', -, hx', -⟩
        omega
    | succ t =>
      apply hrest.cell t (Nat.lt_of_succ_lt_succ ht) i hi j hj p _ hy
      rw [hx, Nat.succ_mul]
      omega
  · intro p hp
    have hlen : (chr :: chars).length * (size.toNat / 2) =
        chars.length * (size.toNat / 2) + size.toNat / 2 := Nat.succ_mul ..
    rw [hlen] at hp
    rw [hrest.rest p, hfirst.rest p]
    · rintro ⟨i, hi, j, hj, hx, hy⟩
      exact hp ⟨i, by omega, j, hj, hx, hy⟩
    · rintro ⟨i, hi, j, hj, hx, hy⟩
      exact hp ⟨size.toNat / 2 + i, by omega, j, hj, by omega, hy⟩

/-- `len` whole cells in a row from `x`, `y` on, and in them the number at the right end of a blank
field; no divisor is 0. -/
structure NumberShown (x y size len : U8) (num : U32) (calls : List CharCall) : Prop where
  divides : ∀ t : U8, t.toNat < len.toNat → mathPow 10 (len - t - 1) ≠ 0
  program : ∀ font mode, oledShowNum font x y mode size len num =
    forEach (CharCall.draw font mode size) calls
  cells : calls.length = len.toNat
  place : ∀ t (h : t < calls.length), (calls.get ⟨t, h⟩).cleared = false ∧
    (calls.get ⟨t, h⟩).x.toNat = x.toNat + t * (size.toNat / 2) ∧ (calls.get ⟨t, h⟩).y = y
  whole : ∀ call ∈ calls, WholeCell size call
  chars : 0 < len.toNat → calls.map CharCall.chr = (numerals num.toNat).leftpad len.toNat 0x20
  painted : ∀ panel font mode b, ∃ g,
    (oledShowNum font x y mode size len num).run (board panel) b = some ((), { b with gram := g }) ∧
      FieldPainted font x.toNat y mode size (calls.map CharCall.chr) b.gram.picture g.picture

theorem chr_numberCalls (x y size : U8) (num : U32) (len : ℕ) :
    (numberCalls x y size num len).map CharCall.chr = numberChars num len 0 := by
  unfold numberCalls
  rw [List.map_map]
  exact List.zipIdx_map_fst 0 _

theorem length_numberCalls (x y size : U8) (num : U32) (len : ℕ) :
    (numberCalls x y size num len).length = len := by
  unfold numberCalls
  rw [List.length_map, List.length_zipIdx, length_numberChars]

theorem index_suppress (showflag : U8) (before : Bool) {tempNum : U8} (h : tempNum.toNat < 10) :
    ((suppress showflag before tempNum).1 - 0x20).toNat < 95 := by
  have hdigit : (tempNum + 0x30 - 0x20).toNat < 95 := by
    revert tempNum
    decide +kernel
  unfold suppress
  split_ifs
  · show (0x20 - 0x20 : U8).toNat < 95
    decide
  · exact hdigit
  · exact hdigit

theorem index_numberChars (num : U32) (k : ℕ) (showflag : U8) :
    ∀ chr ∈ numberChars num k showflag, (chr - 0x20).toNat < 95 := by
  induction k generalizing showflag with
  | zero => exact fun chr hchr => absurd hchr List.not_mem_nil
  | succ k ih =>
    intro chr hchr
    rw [numberChars] at hchr
    rcases List.mem_cons.mp hchr with rfl | hrest
    · exact index_suppress _ _ (digit_lt num k)
    · exact ih _ chr hrest

theorem half_pos {size : U8} (hfont : HasFont size) : 6 ≤ size.toNat / 2 := by
  rcases hfont with rfl | rfl | rfl <;> decide

theorem cell_right {a t len half : ℕ} (hfits : a + len * half ≤ 128) (ht : t < len) :
    a + t * half + half ≤ 128 := by
  have hmul : (t + 1) * half ≤ len * half := Nat.mul_le_mul_right half ht
  rw [Nat.succ_mul] at hmul
  omega

theorem toNat_cell {x size : U8} {t : ℕ} (hfont : HasFont size)
    (hfits : x.toNat + t * (size.toNat / 2) < 256) :
    (x + size / 2 * BitVec.ofNat 8 t).toNat = x.toNat + t * (size.toNat / 2) := by
  have hhalf : (size / 2).toNat = size.toNat / 2 := BitVec.toNat_udiv
  have ht : t ≤ t * (size.toNat / 2) :=
    Nat.le_mul_of_pos_right t (lt_of_lt_of_le (by norm_num) (half_pos hfont))
  have ht8 : (BitVec.ofNat 8 t).toNat = t := toNat_ofNat_of_lt (by omega)
  have hmul : (size / 2 * BitVec.ofNat 8 t).toNat = t * (size.toNat / 2) := by
    rw [BitVec.toNat_mul, hhalf, ht8, Nat.mul_comm]
    exact Nat.mod_eq_of_lt (by omega)
  rw [BitVec.toNat_add_of_lt (by omega), hmul]

theorem get_numberCalls {x y size : U8} {num : U32} {len : ℕ} (hfont : HasFont size)
    (hright : x.toNat + len * (size.toNat / 2) ≤ 128) (t : ℕ)
    (ht : t < (numberCalls x y size num len).length) :
    ((numberCalls x y size num len).get ⟨t, ht⟩).cleared = false ∧
      ((numberCalls x y size num len).get ⟨t, ht⟩).x.toNat = x.toNat + t * (size.toNat / 2) ∧
      ((numberCalls x y size num len).get ⟨t, ht⟩).y = y := by
  have hlt : t < len := by
    rw [length_numberCalls] at ht
    exact ht
  have hcell := cell_right hright hlt
  have hx : x.toNat + t * (size.toNat / 2) < 256 := by omega
  unfold numberCalls
  rw [List.get_eq_getElem, List.getElem_map, List.getElem_zipIdx, Nat.zero_add]
  exact ⟨rfl, toNat_cell hfont hx, rfl⟩

theorem whole_numberCalls {x y size : U8} (num : U32) {len : ℕ} (hfont : HasFont size)
    (hright : x.toNat + len * (size.toNat / 2) ≤ 128) (hbottom : y.toNat + size.toNat ≤ 64) :
    ∀ call ∈ numberCalls x y size num len, WholeCell size call := by
  intro call hcall
  have hchr : call.chr ∈ numberChars num len 0 := by
    rw [← chr_numberCalls x y size]
    exact List.mem_map_of_mem hcall
  obtain ⟨⟨t, ht⟩, rfl⟩ := List.mem_iff_get.mp hcall
  obtain ⟨-, hx, hy⟩ := get_numberCalls hfont hright t ht
  rw [length_numberCalls] at ht
  constructor
  · rw [hx]
    exact cell_right hright ht
  · rw [hy]
    exact hbottom
  · exact index_numberChars num len 0 _ hchr

theorem run_numberCalls (panel : Panel) (font : Font) {x y : U8} (mode : U8) {size : U8}
    (hfont : HasFont size) (hbottom : y.toNat + size.toNat ≤ 64) (chars : List U8) {t : ℕ}
    (hright : x.toNat + (t + chars.length) * (size.toNat / 2) ≤ 128) (b : Board) :
    ∃ g, (forEach (CharCall.draw font mode size)
        ((chars.zipIdx t).map (numberCall x y size))).run (board panel) b =
          some ((), { b with gram := g }) ∧
      FieldPainted font (x.toNat + t * (size.toNat / 2)) y mode size chars b.gram.picture
        g.picture := by
  have hhalf := half_pos hfont
  induction chars generalizing t b with
  | nil => exact ⟨b.gram, rfl, .nil ..⟩
  | cons chr chars ih =>
    have hcount : t + (chars.length + 1) = t + 1 + chars.length := by omega
    rw [List.length_cons, hcount] at hright
    have hcell := cell_right hright (show t < t + 1 + chars.length by omega)
    have hx := toNat_cell (x := x) (t := t) hfont (by omega)
    obtain ⟨g, hdraw, hpicture⟩ := run_oledShowChar panel font b (x + size / 2 * BitVec.ofNat 8 t) mode
      chr (y := y) hfont (by omega)
    have hfirst := painted_charDots font mode chr (x := x + size / 2 * BitVec.ofNat 8 t) (y := y)
      (by omega) (by omega) hfont b.gram.picture
    rw [← hpicture] at hfirst
    obtain ⟨g', hrun, hrest⟩ := ih hright { b with gram := g }
    rw [Nat.succ_mul, ← Nat.add_assoc, ← hx] at hrest
    rw [← hx]
    refine ⟨g', ?_, .cons hfirst hrest⟩
    rw [List.zipIdx_cons, List.map_cons, forEach, numberCall, draw_plain, run_bind_of hdraw]
    exact hrun

theorem divisor_ne_zero {len t : U8} (hlen : len.toNat ≤ 21) (ht : t.toNat < len.toNat) :
    mathPow 10 (len - t - 1) ≠ 0 := by
  have hcount : t.toNat + (len.toNat - (t.toNat + 1) + 1) = len.toNat := by omega
  have hplace := place_eq hcount
  rw [ofNat_toNat_self] at hplace
  rw [hplace]
  intro hzero
  have hpow := congrArg BitVec.toNat hzero
  rw [toNat_mathPow (by omega)] at hpow
  exact absurd hpow (wrappedPow_pos (by omega)).ne'

theorem len_le {x size len : U8} (hfont : HasFont size)
    (hright : x.toNat + len.toNat * (size.toNat / 2) ≤ 128) : len.toNat ≤ 21 := by
  rcases hfont with rfl | rfl | rfl
  · change x.toNat + len.toNat * 6 ≤ 128 at hright
    omega
  · change x.toNat + len.toNat * 8 ≤ 128 at hright
    omega
  · change x.toNat + len.toNat * 12 ≤ 128 at hright
    omega

/-- Every number that `len` digits hold, wherever its field fits on the screen. -/
theorem oledShowNum_shown_iff (x y : U8) {size : U8} (len : U8) (num : U32) (hfont : HasFont size)
    (hright : x.toNat + len.toNat * (size.toNat / 2) ≤ 128) (hbottom : y.toNat + size.toNat ≤ 64)
    (hnum : num.toNat < 10 ^ len.toNat) :
    NumberShown x y size len num (numberCalls x y size num len.toNat) ↔
      BelowWrapped num len.toNat := by
  have hlen := len_le hfont hright
  constructor
  · intro h
    rcases Nat.eq_zero_or_pos len.toNat with hzero | hpos
    · intro k _ hlt
      rw [hzero] at hlt
      exact absurd hlt (Nat.not_lt_zero k)
    · apply (numberChars_iff hpos hlen hnum).mp
      rw [← h.chars hpos, chr_numberCalls]
  · intro h
    have hwhole := whole_numberCalls num hfont hright hbottom
    constructor
    · exact fun t ht => divisor_ne_zero hlen ht
    · exact fun font mode => oledShowNum_eq font x y mode size hlen num
    · exact length_numberCalls x y size num len.toNat
    · exact get_numberCalls hfont hright
    · exact hwhole
    · intro hpos
      rw [chr_numberCalls]
      exact (numberChars_iff hpos hlen hnum).mpr h
    · intro panel font mode b
      rw [← length_numberChars num len.toNat 0, ← Nat.zero_add (numberChars ..).length] at hright
      obtain ⟨g, hrun, hpainted⟩ := run_numberCalls panel font mode hfont hbottom _ hright b
      rw [Nat.zero_mul, Nat.add_zero] at hpainted
      rw [oledShowNum_eq font x y mode size hlen num, chr_numberCalls]
      exact ⟨g, hrun, hpainted⟩

/-- A number at the left edge of the main screen's field. -/
theorem oledShowNum_shown_sample :
    NumberShown 40 16 16 4 1500 (numberCalls 40 16 16 1500 4) ↔ BelowWrapped 1500 4 :=
  oledShowNum_shown_iff 40 16 4 1500 (Or.inr (Or.inl rfl)) (by decide) (by decide) (by decide)

/-- With eleven digits the first divisor is 1410065408, and the number is shown as 11410065408. -/
theorem oledShowNum_wrapped :
    ¬ NumberShown 0 0 12 11 1410065408 (numberCalls 0 0 12 1410065408 11) := by
  intro h
  have hchars := h.chars (by decide)
  rw [chr_numberCalls] at hchars
  exact absurd hchars (by decide +kernel)

end EnvirMonitor.Display
