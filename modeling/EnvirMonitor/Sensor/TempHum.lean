import EnvirMonitor.Sensor.Dht11

/-! Which replies `DHT11_ReadTempHum` accepts. Its comparison is one of integers, so a checksum with
a carry is rejected; and a wait that runs into its limit only yields one more bit. -/

namespace EnvirMonitor.Sensor
open Machine

/-- A line on which the sensor answers: both waits of `DHT11_WaiteCheck` end in time, and the bits
of five bytes follow. -/
structure Response where
  release : Wait 101
  pull : Wait 101
  release_le : release.count ≤ 100
  pull_le : pull.count ≤ 100
  cells : Fin 5 → List Cell
  length : ∀ i, (cells i).length = 8

namespace Response

def frame (r : Response) : List Cell := (List.ofFn r.cells).flatten

def samples (r : Response) : List Bool :=
  r.release.levels true ++ (r.pull.levels false ++ cellSamples r.frame)

def bytes (r : Response) : Buf := fun i => byteOf ((r.cells i).map Cell.level)

theorem frame_eq (r : Response) :
    r.frame = r.cells 0 ++ (r.cells 1 ++ (r.cells 2 ++ (r.cells 3 ++ r.cells 4))) := by
  unfold frame
  rw [← List.append_nil (r.cells 4)]
  rfl

theorem length_frame (r : Response) : r.frame.length = 40 := by
  rw [frame_eq]
  simp only [List.length_append, r.length]

end Response

theorem waiteCheck_levels (release pull : Wait 101) (rest : Line) :
    dht11WaiteCheck (release.levels true ++ₛ (pull.levels false ++ₛ rest)) =
      if release.count > 100 then (1, pull.levels false ++ₛ rest)
      else (if pull.count > 100 then 1 else 0, rest) := by
  unfold dht11WaiteCheck
  simp only [waitWhile_levels]

theorem waiteCheck_samples (r : Response) (rest : Line) :
    dht11WaiteCheck (r.samples ++ₛ rest) = (0, cellSamples r.frame ++ₛ rest) := by
  unfold Response.samples
  rw [Stream'.append_append_stream, Stream'.append_append_stream, waiteCheck_levels,
    if_neg (not_lt.mpr r.release_le), if_neg (not_lt.mpr r.pull_le)]

theorem cellSamples_append (cs cs' : List Cell) :
    cellSamples (cs ++ cs') = cellSamples cs ++ cellSamples cs' := List.flatMap_append

theorem readBuf_samples (r : Response) (rest : Line) :
    readBuf (cellSamples r.frame ++ₛ rest) = (r.bytes, rest) := by
  have hbytes : r.bytes = ![r.bytes 0, r.bytes 1, r.bytes 2, r.bytes 3, r.bytes 4] := by
    funext i
    fin_cases i <;> rfl
  rw [hbytes]
  rw [Response.frame_eq]
  unfold readBuf
  simp only [cellSamples_append, Stream'.append_append_stream, readByte_samples (r.length _)]
  rfl

/-- Every line is a response, or it is not answered. -/
theorem exists_response {line : Line} (h : (dht11WaiteCheck line).1 = 0) :
    ∃ (r : Response) (rest : Line), line = r.samples ++ₛ rest := by
  obtain ⟨release, line, rfl⟩ := exists_levels true 101 line
  obtain ⟨pull, line, rfl⟩ := exists_levels false 101 line
  rw [waiteCheck_levels] at h
  have hsilent : (1 : U8) ≠ 0 := by decide
  split_ifs at h with hrelease hpull
  · exact absurd h hsilent
  · exact absurd h hsilent
  · obtain ⟨c₀, line, h₀, rfl⟩ := exists_cells 8 line
    obtain ⟨c₁, line, h₁, rfl⟩ := exists_cells 8 line
    obtain ⟨c₂, line, h₂, rfl⟩ := exists_cells 8 line
    obtain ⟨c₃, line, h₃, rfl⟩ := exists_cells 8 line
    obtain ⟨c₄, rest, h₄, rfl⟩ := exists_cells 8 line
    refine ⟨⟨release, pull, not_lt.mp hrelease, not_lt.mp hpull, ![c₀, c₁, c₂, c₃, c₄], ?_⟩, rest, ?_⟩
    · intro i
      fin_cases i <;> assumption
    · unfold Response.samples
      rw [Response.frame_eq]
      simp only [cellSamples_append, Stream'.append_append_stream]
      rfl

section
variable {F : Type} (value : U8 → U8 → F)

theorem readTempHum_samples (r : Response) (rest : Line) :
    dht11ReadTempHum value (r.samples ++ₛ rest) =
      (0, if r.bytes.SumIs then r.bytes.stores value else [], rest) := by
  unfold dht11ReadTempHum
  simp only [waiteCheck_samples, readBuf_samples]
  rfl

end

/-! ## The checksum -/

/-- Exactly a reply with the right checksum is stored, and exactly then 0 is returned. -/
structure AcceptsExactly {F : Type} (value : U8 → U8 → F) (line : Line) (buf : Buf) : Prop where
  right : buf.ChecksumRight → (dht11ReadTempHum value line).2.1 = buf.stores value
  wrong : ¬ buf.ChecksumRight → (dht11ReadTempHum value line).2.1 = []
  returns : (dht11ReadTempHum value line).1 = 0 ↔
    (dht11ReadTempHum value line).2.1 = buf.stores value

theorem checksumRight_of_sumIs {buf : Buf} (h : buf.SumIs) : buf.ChecksumRight := by
  have hlt := (buf 4).isLt
  unfold Buf.SumIs at h
  apply BitVec.eq_of_toNat_eq
  simp only [BitVec.toNat_add]
  omega

def msbFirst (b : U8) : List Bool := List.ofFn fun i : Fin 8 => b.getMsbD i

theorem byteOf_msbFirst (b : U8) : byteOf (msbFirst b) = b := by
  revert b
  decide +kernel

def Response.sending (b : Buf) : Response where
  release := .changes 1
  pull := .changes 1
  release_le := by decide
  pull_le := by decide
  cells i := (msbFirst (b i)).map fun level => ⟨.changes 1, .changes 1, level⟩
  length _ := by rw [List.length_map, msbFirst, List.length_ofFn]

theorem Response.bytes_sending (b : Buf) : (Response.sending b).bytes = b := by
  funext i
  show byteOf (((msbFirst (b i)).map _).map Cell.level) = b i
  rw [List.map_map]
  exact (congrArg byteOf (List.map_id _)).trans (byteOf_msbFirst (b i))

/-- Every five bytes can be sent, and however they are, the reply is treated as its checksum wants
exactly if their sum needs no ninth bit and is right. -/
theorem acceptsExactly_iff {F : Type} (value : U8 → U8 → F) (b : Buf) :
    (∃ r : Response, r.bytes = b) ∧ ∀ (r : Response) (rest : Line), r.bytes = b →
      (AcceptsExactly value (r.samples ++ₛ rest) b ↔ b.SumIs) := by
  refine ⟨⟨.sending b, Response.bytes_sending b⟩, ?_⟩
  rintro r rest rfl
  have hread := readTempHum_samples value r rest
  have hstores : r.bytes.stores value ≠ [] := List.cons_ne_nil _ _
  constructor
  · intro h
    by_contra hsum
    rw [if_neg hsum] at hread
    have hupdated := h.returns.mp (congrArg Prod.fst hread)
    rw [hread] at hupdated
    exact hstores hupdated.symm
  · intro hsum
    rw [if_pos hsum] at hread
    have hright := checksumRight_of_sumIs hsum
    constructor
    · intro _
      rw [hread]
    · exact fun hwrong => absurd hright hwrong
    · rw [hread]
      exact iff_of_true rfl rfl

/-- 20.0 degrees at 10.0 % humidity, with a sum of 300: the right checksum 44 is not accepted, and
0 is returned all the same. -/
theorem carry_rejected : ∃ (r : Response) (rest : Line), r.bytes = ![200, 0, 100, 0, 44] ∧
    Buf.ChecksumRight r.bytes ∧
    (dht11ReadTempHum Prod.mk (r.samples ++ₛ rest)).1 = 0 ∧
    (dht11ReadTempHum Prod.mk (r.samples ++ₛ rest)).2.1 = [] ∧
    ¬ AcceptsExactly Prod.mk (r.samples ++ₛ rest) r.bytes := by
  set r := Response.sending ![200, 0, 100, 0, 44]
  have hbytes : r.bytes = ![200, 0, 100, 0, 44] := Response.bytes_sending _
  have hright : Buf.ChecksumRight r.bytes := by
    rw [hbytes]
    decide
  have hsum : ¬ r.bytes.SumIs := by
    rw [hbytes]
    decide
  have hread := readTempHum_samples Prod.mk r (Stream'.const true)
  rw [if_neg hsum] at hread
  have hnothing := congrArg (fun out => out.2.1) hread
  refine ⟨r, Stream'.const true, hbytes, hright, congrArg Prod.fst hread, hnothing, fun h => ?_⟩
  exact List.cons_ne_nil _ _ ((h.right hright).symm.trans hnothing)

/-! ## Time-outs -/

def atBit : ℕ → Line → Line
  | 0, line => line
  | k + 1, line => atBit k (dht11ReadBit line).2

theorem readBits_rest (cnt : ℕ) (ret : U8) (line : Line) :
    (readBits cnt ret line).2 = atBit cnt line := by
  induction cnt generalizing ret line with
  | zero => rfl
  | succ cnt ih => exact ih _ _

theorem atBit_add (m n : ℕ) (line : Line) : atBit (m + n) line = atBit n (atBit m line) := by
  induction m generalizing line with
  | zero => rw [Nat.zero_add, atBit]
  | succ m ih =>
    rw [Nat.succ_add]
    exact ih _

/-- The 40 calls are those of the five bytes. -/
theorem readBuf_rest (line : Line) : (readBuf line).2 = atBit 40 line := by
  have hbyte (line : Line) : (dht11ReadByte line).2 = atBit 8 line := readBits_rest 8 0 line
  unfold readBuf
  simp only [hbyte, ← atBit_add]

def TimesOut (line : Line) : Prop :=
  (dht11WaiteCheck line).1 = 0 ∧ ∃ k < 40, BitTimesOut (atBit k (dht11WaiteCheck line).2)

theorem exists_bit_timesOut (cs : List Cell) (rest : Line) :
    (∃ k < cs.length, BitTimesOut (atBit k (cellSamples cs ++ₛ rest))) ↔ ∃ c ∈ cs, c.TimesOut := by
  induction cs with
  | nil => simp
  | cons c cs ih =>
    have hcons : cellSamples (c :: cs) = c.samples ++ cellSamples cs := List.flatMap_cons
    rw [List.exists_mem_cons_iff, ← ih, hcons, Stream'.append_append_stream, List.length_cons,
      ← bitTimesOut_samples c (cellSamples cs ++ₛ rest)]
    have hnext (k : ℕ) : atBit (k + 1) (c.samples ++ₛ (cellSamples cs ++ₛ rest)) =
        atBit k (cellSamples cs ++ₛ rest) := by rw [atBit, readBit_samples]
    constructor
    · rintro ⟨k, hk, hout⟩
      cases k with
      | zero => exact Or.inl hout
      | succ k =>
        rw [hnext] at hout
        exact Or.inr ⟨k, Nat.lt_of_succ_lt_succ hk, hout⟩
    · rintro (hout | ⟨k, hk, hout⟩)
      · exact ⟨0, Nat.succ_pos _, hout⟩
      · refine ⟨k + 1, Nat.succ_lt_succ hk, ?_⟩
        rw [hnext]
        exact hout

theorem timesOut_samples (r : Response) (rest : Line) :
    TimesOut (r.samples ++ₛ rest) ↔ ∃ c ∈ r.frame, c.TimesOut := by
  unfold TimesOut
  rw [waiteCheck_samples, ← exists_bit_timesOut r.frame rest, r.length_frame]
  exact and_iff_right rfl

/-- What the `k`-th bit of a reply adds to the sum of the first four bytes, or takes from it as a bit
of the last one. -/
def weight (k : ℕ) : ℤ := (if k < 32 then 1 else -1) * 2 ^ (7 - k % 8)

def share (k : ℕ) (level : Bool) : ℤ := if level then weight k else 0

/-- The balance of the levels of the bits from the `k`-th one on. -/
def balance : ℕ → List Bool → ℤ
  | _, [] => 0
  | k, level :: levels => share k level + balance (k + 1) levels

theorem balance_append (k : ℕ) (levels levels' : List Bool) :
    balance k (levels ++ levels') = balance k levels + balance (k + levels.length) levels' := by
  induction levels generalizing k with
  | nil => simp [balance]
  | cons level levels ih =>
    rw [List.cons_append, balance, ih, balance, List.length_cons, Nat.add_right_comm k]
    exact (add_assoc _ _ _).symm

theorem balance_set {levels : List Bool} {k : ℕ} {level : Bool} (h : levels[k]? = some level) (m : ℕ) :
    balance m levels = balance m (levels.set k false) + share (m + k) level := by
  induction levels generalizing k m with
  | nil => simp at h
  | cons first levels ih =>
    cases k with
    | zero =>
      obtain rfl : first = level := by simpa using h
      simp [balance, share, add_comm]
    | succ k =>
      have hrest := ih (by simpa using h) (m + 1)
      rw [List.set_cons_succ, balance, balance, hrest, Nat.add_right_comm m]
      exact (add_assoc _ _ _).symm

theorem balance_byte {bits : List Bool} (hbits : bits.length = 8) (i : Fin 5) :
    balance (8 * i) bits = (if i = 4 then -1 else 1) * ((byteOf bits).toNat : ℤ) := by
  match bits, hbits with
  | [a, b, c, d, e, f, g, h], _ =>
    revert i a b c d e f g h
    decide +kernel

theorem sumIs_iff_balance (r : Response) : r.bytes.SumIs ↔ balance 0 (r.frame.map Cell.level) = 0 := by
  have hlength (i : Fin 5) : ((r.cells i).map Cell.level).length = 8 := by
    rw [List.length_map, r.length]
  have hbyte (i : Fin 5) : balance (8 * i) ((r.cells i).map Cell.level) =
      (if i = 4 then -1 else 1) * ((r.bytes i).toNat : ℤ) := balance_byte (hlength i) i
  have h₀ := hbyte 0
  have h₁ := hbyte 1
  have h₂ := hbyte 2
  have h₃ := hbyte 3
  have h₄ := hbyte 4
  rw [Response.frame_eq, Buf.SumIs]
  simp only [List.map_append, balance_append, hlength]
  simp only [Fin.isValue, Fin.coe_ofNat_eq_mod, Nat.reduceMod, Nat.reduceMul, Fin.reduceEq, if_true,
    if_false, one_mul, neg_one_mul] at h₀ h₁ h₂ h₃ h₄
  simp only [Nat.reduceAdd, h₀, h₁, h₂, h₃, h₄]
  omega

/-- The line carries a reply in which a wait runs into its limit, and the level behind that wait is
the one that balances the other 39. -/
def Deceives (line : Line) : Prop :=
  ∃ (r : Response) (rest : Line), line = r.samples ++ₛ rest ∧ ∃ k c, r.frame[k]? = some c ∧ c.TimesOut ∧
    balance 0 ((r.frame.map Cell.level).set k false) = -share k c.level

theorem balances_iff_sumIs {r : Response} {k : ℕ} {c : Cell} (hc : r.frame[k]? = some c) :
    balance 0 ((r.frame.map Cell.level).set k false) = -share k c.level ↔ r.bytes.SumIs := by
  have hlevel : (r.frame.map Cell.level)[k]? = some c.level := by rw [List.getElem?_map, hc, Option.map_some]
  rw [sumIs_iff_balance, balance_set hlevel 0, Nat.zero_add]
  exact eq_neg_iff_add_eq_zero

theorem Deceives.stored {line : Line} (h : Deceives line) {F : Type} (value : U8 → U8 → F) :
    TimesOut line ∧ (dht11ReadTempHum value line).2.1 ≠ [] := by
  obtain ⟨r, rest, rfl, k, c, hc, hout, hbalance⟩ := h
  refine ⟨(timesOut_samples r rest).mpr ⟨c, List.mem_of_getElem? hc, hout⟩, ?_⟩
  rw [readTempHum_samples, if_pos ((balances_iff_sumIs hc).mp hbalance)]
  exact List.cons_ne_nil _ _

theorem deceives_of_sumIs {r : Response} {rest : Line} (hout : TimesOut (r.samples ++ₛ rest))
    (hsum : r.bytes.SumIs) : Deceives (r.samples ++ₛ rest) := by
  obtain ⟨c, hmem, hcell⟩ := (timesOut_samples r rest).mp hout
  obtain ⟨k, hk⟩ := List.mem_iff_getElem?.mp hmem
  exact ⟨r, rest, rfl, k, c, hk, hcell, (balances_iff_sumIs hk).mpr hsum⟩

/-- Whatever the line does, a time-out leaves the reading alone unless the line deceives. -/
theorem timeOut_ignored_iff {F : Type} (value : U8 → U8 → F) (line : Line) :
    (TimesOut line → (dht11ReadTempHum value line).2.1 = []) ↔ ¬ Deceives line := by
  constructor
  · intro h hdeceives
    obtain ⟨hout, hstored⟩ := hdeceives.stored value
    exact hstored (h hout)
  · intro h hout
    obtain ⟨r, rest, rfl⟩ := exists_response hout.1
    have hsum : ¬ r.bytes.SumIs := fun hsum => h (deceives_of_sumIs hout hsum)
    rw [readTempHum_samples, if_neg hsum]

/-- The samples of one bit on a line that stays at `level`. -/
def stuckCell (level : Bool) : Cell :=
  if level then ⟨.expires, .changes 0, true⟩ else ⟨.changes 0, .expires, false⟩

theorem stuckCell_timesOut (level : Bool) : (stuckCell level).TimesOut := by
  cases level
  · exact Or.inr rfl
  · exact Or.inl rfl

theorem stuckCell_level (level : Bool) : (stuckCell level).level = level := by cases level <;> rfl

/-- A sensor that falls silent behind its first `k` bits deceives exactly if these balance the level
at which the line stays. -/
theorem stuck_deceives_iff {r : Response} {k : ℕ} (hk : k < 40) {level : Bool}
    (hstuck : r.frame.drop k = List.replicate (40 - k) (stuckCell level)) (rest : Line) :
    Deceives (r.samples ++ₛ rest) ↔
      balance 0 ((r.frame.take k).map Cell.level) + balance k (List.replicate (40 - k) level) = 0 := by
  have hout : TimesOut (r.samples ++ₛ rest) := by
    refine (timesOut_samples r rest).mpr ⟨stuckCell level,
      List.mem_of_mem_drop (i := k) ?_, stuckCell_timesOut level⟩
    rw [hstuck]
    exact List.mem_replicate.mpr ⟨(Nat.sub_pos_of_lt hk).ne', rfl⟩
  have hdeceives : Deceives (r.samples ++ₛ rest) ↔ r.bytes.SumIs := by
    refine ⟨fun h => ?_, deceives_of_sumIs hout⟩
    by_contra hsum
    have hstored := (h.stored Prod.mk).2
    rw [readTempHum_samples, if_neg hsum] at hstored
    exact hstored rfl
  have hlevels : r.frame.map Cell.level =
      (r.frame.take k).map Cell.level ++ List.replicate (40 - k) level := by
    rw [← List.take_append_drop k (r.frame.map Cell.level), ← List.map_take, ← List.map_drop, hstuck,
      List.map_replicate, stuckCell_level]
  have hlength : ((r.frame.take k).map Cell.level).length = k := by
    rw [List.length_map, List.length_take, r.length_frame, min_eq_left hk.le]
  rw [hdeceives, sumIs_iff_balance, hlevels, balance_append, hlength, Nat.zero_add]

/-- The line stays low behind the sensor's answer. -/
def stuckLow : Response where
  release := .changes 1
  pull := .changes 1
  release_le := by decide
  pull_le := by decide
  cells _ := List.replicate 8 (stuckCell false)
  length _ := List.length_replicate

theorem stuckLow_bytes : stuckLow.bytes = fun _ => 0 := by
  funext i
  decide +revert

theorem lowCells_const (n : ℕ) :
    cellSamples (List.replicate n (stuckCell false)) ++ₛ Stream'.const false = Stream'.const false := by
  have hlow (n : ℕ) : List.replicate n false ++ₛ Stream'.const false = Stream'.const false := by
    induction n with
    | zero => rfl
    | succ n ih => rw [List.replicate_succ, Stream'.cons_append_stream, ih, ← Stream'.const_eq]
  have hcell : (stuckCell false).samples = List.replicate 103 false := by decide
  induction n with
  | zero => rfl
  | succ n ih =>
    have hcons : cellSamples (List.replicate (n + 1) (stuckCell false)) =
        (stuckCell false).samples ++ cellSamples (List.replicate n (stuckCell false)) := List.flatMap_cons
    rw [hcons, Stream'.append_append_stream, ih, hcell, hlow]

theorem stuckLow_samples : stuckLow.samples ++ₛ Stream'.const false =
    [true, false, false, true] ++ₛ Stream'.const false := by
  have hframe : stuckLow.frame = List.replicate 40 (stuckCell false) := by decide
  unfold Response.samples
  rw [hframe, ← List.append_assoc, Stream'.append_append_stream, lowCells_const]
  rfl

/-- A reading of 0 degrees and 0 % from a sensor that falls silent behind its answer. -/
theorem stuckLow_accepted : ∃ line, line = [true, false, false, true] ++ₛ Stream'.const false ∧
    TimesOut line ∧
    (dht11ReadTempHum Prod.mk line).2.1 = [.temp (0, 0), .hum (0, 0), .ready] := by
  refine ⟨_, stuckLow_samples, ?_, ?_⟩
  · rw [timesOut_samples]
    exact ⟨stuckCell false, by decide, Or.inr rfl⟩
  · rw [readTempHum_samples, stuckLow_bytes]
    rfl

end EnvirMonitor.Sensor
