import EnvirMonitor.Sensor.Receiver
import Mathlib.Data.List.GetD

/-! Valid replies after noise and after an arbitrary state of the receiver. -/

namespace EnvirMonitor.Sensor
open Machine Machine.BlockFormat

/-- A valid reply of the sensor: six data bytes, and the byte that closes the checksum. -/
structure Reply where
  data : List U8
  check : U8
  length : data.length = 6
  valid : ((0x86 :: (data ++ [check])).map BitVec.toNat).sum % 256 = 0

namespace Reply

def bytes (r : Reply) : List U8 := 0xFF :: 0x86 :: (r.data ++ [r.check])

def co2 (r : Reply) : ℕ := (r.data.getD 0 0).toNat * 256 + (r.data.getD 1 0).toNat

@[simp] theorem bytes_length (r : Reply) : r.bytes.length = 9 := by
  simp [bytes, r.length]

theorem body_length (r : Reply) : (r.data ++ [r.check]).length = 7 := by
  simp [r.length]

theorem emit_bytes (r : Reply) : mhz14.emit r.bytes = some r.co2 := by
  have h0 : (r.data ++ [r.check]).getD 0 0 = r.data.getD 0 0 :=
    List.getD_append _ _ _ _ (by rw [r.length]; decide)
  have h1 : (r.data ++ [r.check]).getD 1 0 = r.data.getD 1 0 :=
    List.getD_append _ _ _ _ (by rw [r.length]; decide)
  simp only [mhz14, bytes, List.drop_succ_cons, List.drop_zero, r.valid, if_true, co2,
    List.getD_cons_succ, h0, h1]

theorem decode_bytes (r : Reply) (rest : List U8) :
    mhz14.decode (r.bytes ++ rest) = r.co2 :: mhz14.decode rest := by
  have hlen : mhz14.body ≤ (r.data ++ [r.check] ++ rest).length := by
    simp only [List.length_append, r.body_length, mhz14_body]
    omega
  have hemit := r.emit_bytes
  rw [bytes] at hemit ⊢
  rw [List.cons_append, List.cons_append, decode_block (by decide) hlen, mhz14_body,
    List.take_left' r.body_length, List.drop_left' r.body_length, hemit]
  rfl

theorem residual_bytes (r : Reply) (rest : List U8) :
    mhz14.residual (r.bytes ++ rest) = mhz14.residual rest := by
  have hlen : mhz14.body ≤ (r.data ++ [r.check] ++ rest).length := by
    simp only [List.length_append, r.body_length, mhz14_body]
    omega
  rw [bytes, List.cons_append, List.cons_append, residual_block (by decide) hlen, mhz14_body,
    List.drop_left' r.body_length]

end Reply

/-- Delivered to `s`, the reply stores its value into CO2 once and sets the ready flag. -/
structure Accepted (s : Receiver) (r : Reply) : Prop where
  assigned : (run s r.bytes).assigned = s.assigned ++ [r.co2]
  co2 : (run s r.bytes).co2 = r.co2
  ready : (run s r.bytes).co2DataReady = true

theorem accepted_of_pending_nil {s : Receiver} (h : Pending s []) (r : Reply) :
    Accepted s r ∧ Pending (run s r.bytes) [] := by
  obtain ⟨hpend, hemit⟩ := run_pending h r.bytes
  have hdec := r.decode_bytes []
  have hres := r.residual_bytes []
  rw [List.append_nil] at hdec hres
  rw [List.nil_append, hdec, decode_nil] at hemit
  rw [List.nil_append, hres, residual_nil] at hpend
  exact ⟨⟨hemit.assigned, hemit.co2, by simpa using hemit.ready⟩, hpend⟩

/-! ## Noise before a reply -/

theorem isHeader_of_ne {a : U8} (h : a ≠ 0xFF) (b : U8) : mhz14.isHeader a b = false :=
  (isHeader_false_iff a b).mpr (Or.inl h)

theorem residual_noise (ys : List U8) : ∀ junk : List U8, 0xFF ∉ junk →
    mhz14.residual (junk ++ ys) =
        mhz14.residual (if junk.length % 2 = 0 then ys else junk.getLastD 0 :: ys) ∧
      mhz14.decode (junk ++ ys) =
        mhz14.decode (if junk.length % 2 = 0 then ys else junk.getLastD 0 :: ys)
  | [], _ => by simp
  -- an odd byte at the end takes the first byte of `ys` along
  | [a], _ => by simp
  | a :: b :: junk, h => by
    have ha : a ≠ 0xFF := fun e => h (by simp [e])
    have hjunk : 0xFF ∉ junk := fun e => h (List.mem_cons_of_mem _ (List.mem_cons_of_mem _ e))
    have hlen : (a :: b :: junk).length % 2 = junk.length % 2 := by
      simp only [List.length_cons]
      omega
    have hdrop := isHeader_of_ne ha b
    obtain ⟨hres, hdec⟩ := residual_noise ys junk hjunk
    rw [hlen, List.cons_append, List.cons_append, residual_skip hdrop, decode_skip hdrop, hres, hdec]
    by_cases heven : junk.length % 2 = 0
    · simp [heven]
    · obtain ⟨c, cs, rfl⟩ : ∃ c cs, junk = c :: cs :=
        List.exists_cons_of_ne_nil (by rintro rfl; simp at heven)
      simp

/-- After noise without `0xFF` a valid reply is accepted exactly when the noise has an even
number of bytes: otherwise the `0xFF` is dropped together with the last noise byte. -/
theorem accepted_after_noise_iff {s : Receiver} (h : s.revcnt = 0) {junk : List U8}
    (hjunk : 0xFF ∉ junk) (r : Reply) : Accepted (run s junk) r ↔ junk.length % 2 = 0 := by
  have hnil := pending_nil h
  have hres := (residual_noise [] junk hjunk).1
  have hpend := (run_pending hnil junk).1
  rw [List.append_nil] at hres
  rw [List.nil_append, hres] at hpend
  by_cases heven : junk.length % 2 = 0
  · rw [if_pos heven, residual_nil] at hpend
    exact iff_of_true (accepted_of_pending_nil hpend r).1 heven
  · rw [if_neg heven, residual_single] at hpend
    refine iff_of_false (fun hacc => ?_) heven
    -- the pair (last noise byte, 0xFF) is dropped and eight bytes remain
    have hpair : mhz14.isHeader (junk.getLastD 0) 0xFF = false :=
      (isHeader_false_iff _ _).mpr (Or.inr (by decide))
    have hnone : mhz14.decode ([junk.getLastD 0] ++ r.bytes) = [] := by
      rw [Reply.bytes, List.singleton_append, decode_skip hpair]
      exact decode_eq_nil_of_length (by simp [r.length])
    have hemit := (run_pending hpend r.bytes).2.assigned
    rw [hnone, hacc.assigned, List.append_cancel_left_eq] at hemit
    exact List.cons_ne_nil _ _ hemit

def sampleReply : Reply where
  data := [0x01, 0x90, 0x47, 0x00, 0x00, 0x00]
  check := 0xA2
  length := rfl
  valid := by decide

theorem accepted_after_noise_iff_boot :
    Accepted (run boot [0x00]) sampleReply ↔ [(0x00 : U8)].length % 2 = 0 :=
  accepted_after_noise_iff rfl (by decide) sampleReply

theorem not_accepted_after_one_byte :
    0xFF ∉ [(0x00 : U8)] ∧ boot.revcnt = 0 ∧ ¬ Accepted (run boot [0x00]) sampleReply := by
  refine ⟨by decide, rfl, fun h => ?_⟩
  have hassigned := h.assigned
  revert hassigned
  decide

/-! ## Resynchronisation -/

/-- The pair `0xFF 0x86` occurs only at the first two positions of a reply. -/
def HeadersOnlyAtStarts (stream : List U8) : Prop :=
  ∀ i : ℕ, stream[i]? = some 0xFF → stream[i + 1]? = some 0x86 → i % 9 = 0

theorem residual_two_replies {p : List U8} (hp : mhz14.residual p = p) (r₁ r₂ : Reply)
    (hstream : HeadersOnlyAtStarts (r₁.bytes ++ r₂.bytes)) :
    mhz14.residual (p ++ (r₁.bytes ++ r₂.bytes)) = [] := by
  have hlen : (r₁.bytes ++ r₂.bytes).length = 18 := by simp
  have hdrop (o n : ℕ) (ho : o + 2 * n ≤ 18) (hoff : ∀ i, i < n → (o + 2 * i) % 9 ≠ 0) :
      mhz14.residual ((r₁.bytes ++ r₂.bytes).drop o) =
        mhz14.residual ((r₁.bytes ++ r₂.bytes).drop (o + 2 * n)) := by
    refine residual_drop_pairs n o (by omega) fun i hi a b ha hb => ?_
    rw [isHeader_false_iff, ← not_and_or]
    rintro ⟨rfl, rfl⟩
    exact hoff i hi (hstream _ ha hb)
  have hnine : mhz14.residual ((r₁.bytes ++ r₂.bytes).drop 9) = [] := by
    rw [List.drop_left' r₁.bytes_length]
    simpa using r₂.residual_bytes []
  rcases residual_shape (F := mhz14) p with hs | ⟨a, hs⟩ | ⟨a, b, rest, hs, hhead, hrest⟩ <;>
    rw [hp] at hs <;> subst hs
  · rw [List.nil_append, r₁.residual_bytes]
    simpa using r₂.residual_bytes []
  · have hpair : mhz14.isHeader a 0xFF = false :=
      (isHeader_false_iff _ _).mpr (Or.inr (by decide))
    have hone : [a] ++ (r₁.bytes ++ r₂.bytes) =
        a :: 0xFF :: (r₁.bytes ++ r₂.bytes).drop 1 := rfl
    rw [hone, residual_skip hpair, hdrop 1 4 (by omega) (by omega), hnine]
  · -- the block in progress ends `7 - rest.length` bytes into the first reply
    rw [mhz14_body] at hrest
    have hfull : mhz14.body ≤ (rest ++ (r₁.bytes ++ r₂.bytes)).length := by
      rw [List.length_append, hlen, mhz14_body]
      omega
    rw [List.cons_append, List.cons_append, residual_block hhead hfull, mhz14_body,
      List.drop_append, List.drop_of_length_le hrest.le, List.nil_append]
    by_cases hodd : (7 - rest.length) % 2 = 1
    · rw [hdrop (7 - rest.length) ((9 - (7 - rest.length)) / 2) (by omega) (by omega),
        show 7 - rest.length + 2 * ((9 - (7 - rest.length)) / 2) = 9 by omega, hnine]
    · rw [hdrop (7 - rest.length) ((18 - (7 - rest.length)) / 2) (by omega) (by omega),
        List.drop_of_length_le (by omega), residual_nil]

theorem pending_after_replies {s : Receiver} (h : Pending s []) (rs : List Reply) :
    Pending (run s (rs.flatMap Reply.bytes)) [] := by
  induction rs generalizing s with
  | nil => exact h
  | cons r rs ih =>
    rw [List.flatMap_cons, run_append]
    exact ih (accepted_of_pending_nil h r).2

/-- From every reachable state, the third of a sequence of valid replies and all later ones
are accepted, and the counter is 0 at the end. -/
theorem resync_within_three_replies (noise : List U8) (rs : List Reply) (hthree : 3 ≤ rs.length)
    (hstream : HeadersOnlyAtStarts (rs.flatMap Reply.bytes)) :
    (∀ k (hk : k < rs.length), 2 ≤ k →
        Accepted (run (run boot noise) ((rs.take k).flatMap Reply.bytes)) rs[k]) ∧
      (run (run boot noise) (rs.flatMap Reply.bytes)).revcnt = 0 := by
  obtain ⟨r₁, r₂, rest, rfl⟩ : ∃ r₁ r₂ rest, rs = r₁ :: r₂ :: rest := by
    match rs, hthree with
    | r₁ :: r₂ :: rest, _ => exact ⟨r₁, r₂, rest, rfl⟩
  have hsplit (qs : List Reply) : (r₁ :: r₂ :: qs).flatMap Reply.bytes =
      (r₁.bytes ++ r₂.bytes) ++ qs.flatMap Reply.bytes := by
    simp [List.flatMap_cons, List.append_assoc]
  have htwo : HeadersOnlyAtStarts (r₁.bytes ++ r₂.bytes) := by
    intro i h0 h1
    have hlt : i + 1 < (r₁.bytes ++ r₂.bytes).length := (List.getElem?_eq_some_iff.mp h1).1
    refine hstream i ?_ ?_ <;> rw [hsplit, List.getElem?_append_left (by omega)] <;> assumption
  have hstart := (run_pending boot_pending noise).1
  have hsync : Pending (run (run boot noise) (r₁.bytes ++ r₂.bytes)) [] := by
    have := (run_pending hstart (r₁.bytes ++ r₂.bytes)).1
    rwa [residual_two_replies hstart.waiting r₁ r₂ htwo] at this
  refine ⟨fun k hk htwo_le => ?_, ?_⟩
  · obtain ⟨j, rfl⟩ : ∃ j, k = j + 2 := ⟨k - 2, by omega⟩
    rw [List.take_succ_cons, List.take_succ_cons, hsplit, run_append]
    exact (accepted_of_pending_nil (pending_after_replies hsync _) _).1
  · rw [hsplit, run_append]
    exact (pending_after_replies hsync rest).count

theorem resync_sample :
    (∀ k (hk : k < 3), 2 ≤ k → Accepted (run (run boot [0xFF, 0x86, 0x00])
        ((([sampleReply, sampleReply, sampleReply]).take k).flatMap Reply.bytes))
          [sampleReply, sampleReply, sampleReply][k]) ∧
      (run (run boot [0xFF, 0x86, 0x00])
        ([sampleReply, sampleReply, sampleReply].flatMap Reply.bytes)).revcnt = 0 := by
  refine resync_within_three_replies [0xFF, 0x86, 0x00] [sampleReply, sampleReply, sampleReply]
    (by decide) ?_
  intro i h0 h1
  have hlt : i < 27 := (List.getElem?_eq_some_iff.mp h0).1
  revert h0 h1
  revert i
  decide

end EnvirMonitor.Sensor
