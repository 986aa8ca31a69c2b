import EnvirMonitor.Serial.LineReceiver

/-! A line that is too long for the buffer: the counter starts again behind every 200th byte, and
what is left when the terminator comes is reported as a whole line. -/

namespace EnvirMonitor.Serial
open Machine

def reported (s : LineReceiver) : Option (List U8) :=
  if s.sta &&& 0x8000 ≠ 0 then some ((List.range (s.sta &&& 0x3FFF).toNat).map s.buff) else none

def tail (c : List U8) : List U8 := c.drop (usart1rxMaxlen * (c.length / usart1rxMaxlen))

theorem length_tail (c : List U8) : (tail c).length = c.length % usart1rxMaxlen := by
  rw [tail, List.length_drop]
  exact (Nat.mod_eq_sub_mul_div).symm

theorem tail_concat (c : List U8) (b : U8) :
    tail (c ++ [b]) = if (tail c).length + 1 = usart1rxMaxlen then [] else tail c ++ [b] := by
  rw [length_tail, tail, tail, List.length_append, List.length_singleton]
  have hdiv := Nat.div_add_mod c.length usart1rxMaxlen
  have hmod := Nat.mod_lt c.length (by decide : 0 < usart1rxMaxlen)
  split_ifs with hlast
  · have hnext : (c.length + 1) / usart1rxMaxlen = c.length / usart1rxMaxlen + 1 := by
      apply Nat.div_eq_of_lt_le <;> rw [Nat.add_mul] <;> unfold usart1rxMaxlen at * <;> omega
    rw [hnext, List.drop_eq_nil_iff, List.length_append, List.length_singleton, Nat.mul_add]
    omega
  · have hsame : (c.length + 1) / usart1rxMaxlen = c.length / usart1rxMaxlen := by
      unfold usart1rxMaxlen at *
      omega
    rw [hsame]
    apply List.drop_append_of_le_length
    omega

theorem run_plain (buff : ℕ → U8) {c : List U8} (hc : ∀ b ∈ c, b ≠ 0x0D) :
    Holds (run (cleared buff) c) (tail c) .missing := by
  induction c using List.reverseRecOn with
  | nil => exact holds_cleared buff
  | append_singleton c b ih =>
    obtain ⟨hc, hb⟩ := List.forall_mem_append.mp hc
    have hline := ih hc
    have hplain : b ≠ 0x0D := hb b List.mem_cons_self
    rw [run_concat, receiveByte_plain hline hplain, tail_concat]
    exact holds_store hline hplain

def afterLine (buff : ℕ → U8) (c : List U8) : LineReceiver :=
  run (cleared buff) (c ++ Ending.complete.bytes)

theorem holds_afterLine (buff : ℕ → U8) {c : List U8} (hc : ∀ b ∈ c, b ≠ 0x0D) :
    Holds (afterLine buff c) (tail c) .complete := by
  have hline := holds_lf (holds_cr (run_plain buff hc))
  rw [← run_concat, ← run_concat, List.append_assoc] at hline
  exact hline

theorem Holds.reported {s : LineReceiver} {data : List U8} (h : Holds s data .complete) :
    reported s = some data := by
  have hdone := pack_done h.short .complete
  rw [← h.sta] at hdone
  rw [Serial.reported, if_pos (hdone.mpr rfl), h.sta, pack_count h.short]
  apply congrArg some
  exact List.ext_getElem (by simp) fun i hi hi' => by simpa using h.stored i hi'

/-- A line that fits is complete with its length and content; and no longer line is reported, on
the way or at its end, with another content. -/
structure Intact (buff : ℕ → U8) (c : List U8) : Prop where
  fits : c.length ≤ 199 → (afterLine buff c).sta &&& 0x8000 ≠ 0 ∧
    ((afterLine buff c).sta &&& 0x3FFF).toNat = c.length ∧
    (List.range c.length).map (afterLine buff c).buff = c
  whole : 199 < c.length → ∀ received, received <+: c ++ Ending.complete.bytes →
    ∀ line ∈ reported (run (cleared buff) received), line = c

/-- No line beyond 199 bytes is reported whole. -/
theorem intact_iff (buff : ℕ → U8) {c : List U8} (hc : ∀ b ∈ c, b ≠ 0x0D) :
    Intact buff c ↔ c.length ≤ 199 := by
  have hline := holds_afterLine buff hc
  have hlen := length_tail c
  constructor
  · intro h
    by_contra hlong
    have hwhole : tail c = c :=
      h.whole (not_le.mp hlong) _ List.prefix_rfl (tail c) hline.reported
    rw [hwhole] at hlen
    have hmod := Nat.mod_lt c.length (by decide : 0 < usart1rxMaxlen)
    unfold usart1rxMaxlen at hmod hlen
    omega
  · intro hshort
    have htail : tail c = c := by
      have hzero : c.length / usart1rxMaxlen = 0 := Nat.div_eq_of_lt (Nat.lt_succ_of_le hshort)
      rw [tail, hzero, Nat.mul_zero, List.drop_zero]
    rw [htail] at hline
    refine ⟨fun _ => ?_, fun hlong => absurd hshort (not_le.mpr hlong)⟩
    have hdone := pack_done hline.short .complete
    rw [← hline.sta] at hdone
    refine ⟨hdone.mpr rfl, ?_, ?_⟩
    · rw [hline.sta, pack_count hline.short]
    · exact List.ext_getElem (by simp) fun i hi hi' => by simpa using hline.stored i hi'

theorem intact_iff_sample : Intact (fun _ => 0) [0x4F, 0x4B] :=
  (intact_iff (fun _ => 0) (by decide)).mpr (by decide)

/-- Of 203 letters the last three are reported as a line. -/
theorem long_line_mutilated : (∀ b ∈ List.replicate 203 (0x41 : U8), b ≠ 0x0D) ∧
    reported (run (cleared fun _ => 0) (List.replicate 203 0x41 ++ [0x0D, 0x0A])) =
      some [0x41, 0x41, 0x41] ∧ ¬ Intact (fun _ => 0) (List.replicate 203 0x41) := by
  have hplain : ∀ b ∈ List.replicate 203 (0x41 : U8), b ≠ 0x0D := by
    intro b hb
    rw [List.eq_of_mem_replicate hb]
    decide
  have hreported : reported (run (cleared fun _ => 0) (List.replicate 203 0x41 ++ [0x0D, 0x0A])) =
      some [0x41, 0x41, 0x41] := by decide +kernel
  refine ⟨hplain, hreported, fun h => ?_⟩
  have hlength : (List.replicate 203 (0x41 : U8)).length = 203 := List.length_replicate
  have hlong : 199 < (List.replicate 203 (0x41 : U8)).length := by rw [hlength]; decide
  have hwhole := congrArg List.length (h.whole hlong _ List.prefix_rfl _ hreported)
  rw [hlength] at hwhole
  exact absurd hwhole (by decide)

end EnvirMonitor.Serial
