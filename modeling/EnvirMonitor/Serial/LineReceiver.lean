import EnvirMonitor.Machine.Words

/-! The line receiver of `USART.c`: `USART1_IRQHandler` packs a byte count and two flags into
one word. The history of the line explains that word and the buffer. -/

namespace EnvirMonitor.Serial
open Machine

structure LineReceiver where
  sta : U16
  buff : ℕ → U8

def usart1rxMaxlen : ℕ := 200

def storeIndex (s : LineReceiver) : ℕ := (s.sta &&& 0x3FFF).toNat

def store (s : LineReceiver) (recvdata : U8) : LineReceiver where
  sta := if usart1rxMaxlen - 1 < (s.sta + 1).toNat then 0 else s.sta + 1
  buff := Function.update s.buff (storeIndex s) recvdata

def receiveByte (s : LineReceiver) (recvdata : U8) : LineReceiver :=
  if s.sta &&& 0x8000 = 0 then
    if s.sta &&& 0x4000 ≠ 0 then
      if recvdata = 0x0A then { s with sta := s.sta ||| 0x8000 } else { s with sta := 0 }
    else if recvdata = 0x0D then { s with sta := s.sta ||| 0x4000 }
    else store s recvdata
  else s

/-- `rxne` is the received byte when the RXNE flag is set. -/
def usart1IRQHandler (s : LineReceiver) (rxne : Option U8) : LineReceiver :=
  match rxne with
  | none => s
  | some recvdata => receiveByte s recvdata

/-- Before the first byte, and after software has taken a line. -/
def cleared (buff : ℕ → U8) : LineReceiver := ⟨0, buff⟩

def run (s : LineReceiver) (bytes : List U8) : LineReceiver :=
  bytes.foldl (fun s b => usart1IRQHandler s (some b)) s

@[simp] theorem run_nil (s : LineReceiver) : run s [] = s := rfl

@[simp] theorem run_cons (s : LineReceiver) (b : U8) (bytes : List U8) :
    run s (b :: bytes) = run (receiveByte s b) bytes := rfl

theorem run_concat (s : LineReceiver) (bytes : List U8) (b : U8) :
    run s (bytes ++ [b]) = receiveByte (run s bytes) b := List.foldl_append

/-! ## The packed word -/

/-- How much of the terminator `0x0D 0x0A` has arrived. -/
inductive Ending
  | missing | half | complete
  deriving DecidableEq

namespace Ending

def bytes : Ending → List U8
  | missing => []
  | half => [0x0D]
  | complete => [0x0D, 0x0A]

def flags : Ending → U16
  | missing => 0
  | half => 0x4000
  | complete => 0xC000

end Ending

def pack (count : ℕ) (ending : Ending) : U16 := BitVec.ofNat 16 count ||| ending.flags

theorem pack_count {n : ℕ} (hn : n < usart1rxMaxlen) (ending : Ending) :
    (pack n ending &&& 0x3FFF).toNat = n := by
  revert n
  cases ending <;> decide +kernel

theorem pack_half {n : ℕ} (hn : n < usart1rxMaxlen) (ending : Ending) :
    pack n ending &&& 0x4000 ≠ 0 ↔ ending ≠ .missing := by
  revert n
  cases ending <;> decide +kernel

theorem pack_done {n : ℕ} (hn : n < usart1rxMaxlen) (ending : Ending) :
    pack n ending &&& 0x8000 ≠ 0 ↔ ending = .complete := by
  revert n
  cases ending <;> decide +kernel

theorem pack_or_half {n : ℕ} (hn : n < usart1rxMaxlen) :
    pack n .missing ||| 0x4000 = pack n .half := by
  revert n
  decide +kernel

theorem pack_or_done {n : ℕ} (hn : n < usart1rxMaxlen) :
    pack n .half ||| 0x8000 = pack n .complete := by
  revert n
  decide +kernel

/-- The overflow test is made on the packed word, while no flag is set. -/
theorem pack_succ {n : ℕ} (hn : n < usart1rxMaxlen) :
    (if usart1rxMaxlen - 1 < (pack n .missing + 1).toNat then 0 else pack n .missing + 1) =
      pack ((n + 1) % usart1rxMaxlen) .missing := by
  revert n
  decide +kernel

/-! ## The history of the line -/

/-- A line that the receiver gives up: one that never ends, or one with a lone `0x0D`. -/
def Restart (line : List U8) : Prop :=
  (line.length = usart1rxMaxlen ∧ ∀ b ∈ line, b ≠ 0x0D) ∨
    ∃ data b, line = data ++ [0x0D, b] ∧ b ≠ 0x0A ∧ data.length < usart1rxMaxlen ∧
      ∀ b ∈ data, b ≠ 0x0D

/-- Since the last restart `data` and then `ending` have been received. -/
structure Holds (s : LineReceiver) (data : List U8) (ending : Ending) : Prop where
  sta : s.sta = pack data.length ending
  short : data.length < usart1rxMaxlen
  plain : ∀ b ∈ data, b ≠ 0x0D
  stored : ∀ (i : ℕ) (h : i < data.length), s.buff i = data[i]

/-- What was received before the last restart, and after the line was complete. -/
def Explains (bytes data : List U8) (ending : Ending) : Prop :=
  ∃ (restarts : List (List U8)) (rest : List U8),
    bytes = restarts.flatten ++ (data ++ (ending.bytes ++ rest)) ∧ (∀ line ∈ restarts, Restart line) ∧
      (ending ≠ .complete → rest = [])

theorem holds_cleared (buff : ℕ → U8) : Holds (cleared buff) [] .missing :=
  ⟨rfl, by decide, by simp, fun i hi => absurd hi (Nat.not_lt_zero i)⟩

theorem holds_store {s : LineReceiver} {data : List U8} (h : Holds s data .missing) {b : U8}
    (hb : b ≠ 0x0D) : Holds (store s b) (if data.length + 1 = usart1rxMaxlen then [] else data ++ [b])
      .missing := by
  have hindex : storeIndex s = data.length := by
    rw [storeIndex, h.sta, pack_count h.short]
  have hsta : (store s b).sta = pack ((data.length + 1) % usart1rxMaxlen) .missing := by
    rw [store, h.sta, pack_succ h.short]
  have hshort := h.short
  split_ifs with hlast
  · rw [hlast, Nat.mod_self] at hsta
    exact ⟨hsta, by decide, by simp, fun i hi => absurd hi (Nat.not_lt_zero i)⟩
  · have hlt : data.length + 1 < usart1rxMaxlen := by omega
    rw [Nat.mod_eq_of_lt hlt] at hsta
    refine ⟨by rw [hsta, List.length_append, List.length_singleton], by simpa using hlt, ?_, ?_⟩
    · intro x hx
      rcases List.mem_append.mp hx with hx | hx
      · exact h.plain x hx
      · exact List.mem_singleton.mp hx ▸ hb
    · intro i hi
      simp only [store, hindex]
      by_cases hi' : i < data.length
      · rw [Function.update_of_ne hi'.ne, List.getElem_append_left hi', h.stored i hi']
      · have heq : i = data.length := by
          rw [List.length_append, List.length_singleton] at hi
          omega
        subst heq
        simp

theorem Holds.not_done {s : LineReceiver} {data : List U8} {ending : Ending}
    (h : Holds s data ending) (hopen : ending ≠ .complete) : s.sta &&& 0x8000 = 0 := by
  have hdone := pack_done h.short ending
  rw [← h.sta] at hdone
  exact not_not.mp (mt hdone.mp hopen)

theorem receiveByte_plain {s : LineReceiver} {data : List U8} (h : Holds s data .missing) {b : U8}
    (hb : b ≠ 0x0D) : receiveByte s b = store s b := by
  have hhalf := pack_half h.short .missing
  rw [← h.sta] at hhalf
  unfold receiveByte
  rw [if_pos (h.not_done (by decide)), if_neg (mt hhalf.mp (by decide)), if_neg hb]

theorem holds_cr {s : LineReceiver} {data : List U8} (h : Holds s data .missing) :
    Holds (receiveByte s 0x0D) data .half := by
  have hhalf := pack_half h.short .missing
  rw [← h.sta] at hhalf
  unfold receiveByte
  rw [if_pos (h.not_done (by decide)), if_neg (mt hhalf.mp (by decide)), if_pos rfl]
  refine ⟨?_, h.short, h.plain, h.stored⟩
  rw [← pack_or_half h.short, ← h.sta]

theorem receiveByte_half {s : LineReceiver} {data : List U8} (h : Holds s data .half) (b : U8) :
    receiveByte s b = if b = 0x0A then { s with sta := s.sta ||| 0x8000 } else cleared s.buff := by
  have hhalf := pack_half h.short .half
  rw [← h.sta] at hhalf
  unfold receiveByte
  rw [if_pos (h.not_done (by decide)), if_pos (hhalf.mpr (by decide))]
  rfl

theorem holds_lf {s : LineReceiver} {data : List U8} (h : Holds s data .half) :
    Holds (receiveByte s 0x0A) data .complete := by
  rw [receiveByte_half h, if_pos rfl]
  refine ⟨?_, h.short, h.plain, h.stored⟩
  rw [← pack_or_done h.short, ← h.sta]

theorem Explains.extend {bytes data data' : List U8} {ending ending' : Ending} {b : U8}
    (h : Explains bytes data ending) (hopen : ending ≠ .complete)
    (hline : data' ++ ending'.bytes = data ++ ending.bytes ++ [b]) :
    Explains (bytes ++ [b]) data' ending' := by
  obtain ⟨restarts, rest, rfl, hrestarts, hrest⟩ := h
  obtain rfl := hrest hopen
  refine ⟨restarts, [], ?_, hrestarts, fun _ => rfl⟩
  rw [List.append_nil, List.append_nil, List.append_assoc, hline]

theorem Explains.restart {bytes data : List U8} {ending : Ending} {b : U8}
    (h : Explains bytes data ending) (hopen : ending ≠ .complete)
    (hline : Restart (data ++ ending.bytes ++ [b])) : Explains (bytes ++ [b]) [] .missing := by
  obtain ⟨restarts, rest, rfl, hrestarts, hrest⟩ := h
  obtain rfl := hrest hopen
  refine ⟨restarts ++ [data ++ ending.bytes ++ [b]], [], ?_, fun line hmem => ?_, fun _ => rfl⟩
  · simp [Ending.bytes]
  · rcases List.mem_append.mp hmem with hmem | hmem
    · exact hrestarts line hmem
    · exact List.mem_singleton.mp hmem ▸ hline

theorem Explains.ignore {bytes data : List U8} (h : Explains bytes data .complete) (b : U8) :
    Explains (bytes ++ [b]) data .complete := by
  obtain ⟨restarts, rest, rfl, hrestarts, -⟩ := h
  exact ⟨restarts, rest ++ [b], by simp, hrestarts, fun hne => absurd rfl hne⟩

theorem receiveByte_holds {s : LineReceiver} {bytes data : List U8} {ending : Ending}
    (h : Holds s data ending) (he : Explains bytes data ending) (b : U8) :
    ∃ data' ending', Holds (receiveByte s b) data' ending' ∧
      Explains (bytes ++ [b]) data' ending' := by
  cases ending with
  | missing =>
    by_cases hb : b = 0x0D
    · subst hb
      exact ⟨data, .half, holds_cr h, he.extend (by decide) (by simp [Ending.bytes])⟩
    · rw [receiveByte_plain h hb]
      refine ⟨_, .missing, holds_store h hb, ?_⟩
      -- the 200th byte closes a line that never ends
      split_ifs with hlast
      · refine he.restart (by decide) (Or.inl ⟨by simpa [Ending.bytes] using hlast, ?_⟩)
        rw [Ending.bytes, List.append_nil]
        exact List.forall_mem_append.mpr ⟨h.plain, List.forall_mem_singleton.mpr hb⟩
      · exact he.extend (by decide) (by simp [Ending.bytes])
  | half =>
    by_cases hb : b = 0x0A
    · subst hb
      exact ⟨data, .complete, holds_lf h, he.extend (by decide) (by simp [Ending.bytes])⟩
    · rw [receiveByte_half h, if_neg hb]
      refine ⟨[], .missing, holds_cleared s.buff, he.restart (by decide) (Or.inr ?_)⟩
      exact ⟨data, b, by simp [Ending.bytes], hb, h.short, h.plain⟩
  | complete =>
    have hdone := pack_done h.short .complete
    rw [← h.sta] at hdone
    have hkept : receiveByte s b = s := if_neg (hdone.mpr rfl)
    rw [hkept]
    exact ⟨data, .complete, h, he.ignore b⟩

theorem run_holds (buff : ℕ → U8) (bytes : List U8) :
    ∃ data ending, Holds (run (cleared buff) bytes) data ending ∧ Explains bytes data ending := by
  induction bytes using List.reverseRecOn with
  | nil => exact ⟨[], .missing, holds_cleared buff, [], [], rfl, by simp, fun _ => rfl⟩
  | append_singleton bytes b ih =>
    obtain ⟨data, ending, h, he⟩ := ih
    rw [run_concat]
    exact receiveByte_holds h he b

theorem run_done {s : LineReceiver} (h : s.sta &&& 0x8000 ≠ 0) (bytes : List U8) :
    run s bytes = s := by
  induction bytes with
  | nil => rfl
  | cons b bytes ih =>
    have hb : receiveByte s b = s := if_neg h
    rw [run_cons, hb, ih]

/-- After every byte stream the count is below the buffer's length, as is every index stored
at on the way; the buffer starts with the data bytes since the last restart, and a complete
line stays as it is. -/
theorem usart1_line_explained (buff : ℕ → U8) (bytes : List U8) :
    (∀ received, received <+: bytes → storeIndex (run (cleared buff) received) < usart1rxMaxlen) ∧
      ((run (cleared buff) bytes).sta &&& 0x8000 ≠ 0 →
        (run (cleared buff) bytes).sta &&& 0x4000 ≠ 0 ∧
          ∀ more, run (run (cleared buff) bytes) more = run (cleared buff) bytes) ∧
      ∃ data ending, Explains bytes data ending ∧ (∀ b ∈ data, b ≠ 0x0D) ∧
        ((run (cleared buff) bytes).sta &&& 0x3FFF).toNat = data.length ∧
        ((run (cleared buff) bytes).sta &&& 0x4000 ≠ 0 ↔ ending ≠ .missing) ∧
        ((run (cleared buff) bytes).sta &&& 0x8000 ≠ 0 ↔ ending = .complete) ∧
        (List.range data.length).map (run (cleared buff) bytes).buff = data := by
  obtain ⟨data, ending, h, he⟩ := run_holds buff bytes
  have hhalf := pack_half h.short ending
  have hdone := pack_done h.short ending
  rw [← h.sta] at hhalf hdone
  refine ⟨fun received _ => ?_, fun hd => ⟨?_, run_done hd⟩, data, ending, he, h.plain, ?_, hhalf,
    hdone, ?_⟩
  · obtain ⟨data, ending, h, -⟩ := run_holds buff received
    rw [storeIndex, h.sta, pack_count h.short]
    exact h.short
  · exact hhalf.mpr fun hm => absurd ((hdone.mp hd).symm.trans hm) (by decide)
  · rw [h.sta, pack_count h.short]
  · refine List.ext_getElem (by simp) fun i hi hi' => ?_
    simpa using h.stored i hi'

end EnvirMonitor.Serial
