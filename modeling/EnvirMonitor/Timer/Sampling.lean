import EnvirMonitor.Client.Steps

/-! The handler of TIM2, which counts its interrupts to ask for the CO2 concentration and to have
the data sent, and the code around it. -/

namespace EnvirMonitor.Timer
open Machine
open Client (hasFlag setFlag senddataFlag)

/-- `timecnt` is static in the handler; `usart3` is what has gone out to the sensor. -/
structure Sampling where
  timecnt : U8
  tcpClientFlag : U8
  led1 : Bool
  usart3 : List U8

def mhz14ReadComm : List U8 := [0xFF, 0x01, 0x86, 0x00, 0x00, 0x00, 0x00, 0x00, 0x79]

def mhz14SendMeasureComm (s : Sampling) : Sampling := { s with usart3 := s.usart3 ++ mhz14ReadComm }

def tim2IRQHandler (s : Sampling) (update : Bool) : Sampling :=
  if update then
    let s := { s with timecnt := s.timecnt + 1 }
    let s := if s.timecnt % 4 = 0 then { mhz14SendMeasureComm s with led1 := !s.led1 } else s
    if s.timecnt % 10 = 0 then
      { s with tcpClientFlag := setFlag s.tcpClientFlag senddataFlag, timecnt := 0 }
    else s
  else s

/-- An interrupt of TIM2, or other code, which assigns the flags and the lamp. -/
inductive SamplingEvent
  | tim2 (update : Bool)
  | others (tcpClientFlag : U8) (led1 : Bool)

def Sampling.step (s : Sampling) : SamplingEvent → Sampling
  | .tim2 update => tim2IRQHandler s update
  | .others tcpClientFlag led1 => { s with tcpClientFlag := tcpClientFlag, led1 := led1 }

def Sampling.boot : Sampling := ⟨0, 0, false, []⟩

def Sampling.run (es : List SamplingEvent) : Sampling := es.foldl Sampling.step Sampling.boot

/-- The client's model of the handler is this one without what it sends to the sensor. -/
theorem tim2_world (w : Client.World) (led1 : Bool) (usart3 : List U8) :
    (tim2IRQHandler ⟨w.timecnt, w.tcpClientFlag, led1, usart3⟩ true).timecnt =
        (Client.tim2IRQHandler w).timecnt ∧
      (tim2IRQHandler ⟨w.timecnt, w.tcpClientFlag, led1, usart3⟩ true).tcpClientFlag =
        (Client.tim2IRQHandler w).tcpClientFlag := by
  unfold tim2IRQHandler Client.tim2IRQHandler mhz14SendMeasureComm
  simp only [if_true]
  split_ifs <;> exact ⟨rfl, rfl⟩

/-! ## One interrupt -/

/-- The handler in terms of the number that `timecnt` is raised to. -/
structure Tim2Spec (s s' : Sampling) (n : ℕ) : Prop where
  timecnt : s'.timecnt.toNat = n % 10
  usart3 : s'.usart3 = s.usart3 ++ if n % 4 = 0 then mhz14ReadComm else []
  flag : s'.tcpClientFlag =
    if n % 10 = 0 then setFlag s.tcpClientFlag senddataFlag else s.tcpClientFlag

theorem mod_eq_zero_iff (c d : U8) : c % d = 0 ↔ c.toNat % d.toNat = 0 := by
  rw [← BitVec.toNat_inj, BitVec.toNat_umod]
  rfl

theorem tim2_spec {s : Sampling} (h : s.timecnt.toNat < 10) :
    Tim2Spec s (tim2IRQHandler s true) (s.timecnt.toNat + 1) := by
  have hnext : (s.timecnt + 1).toNat = s.timecnt.toNat + 1 := toNat_add_one (by omega)
  have hfour : (s.timecnt + 1) % 4 = 0 ↔ (s.timecnt.toNat + 1) % 4 = 0 := by
    rw [mod_eq_zero_iff, hnext]
    rfl
  have hten : (s.timecnt + 1) % 10 = 0 ↔ (s.timecnt.toNat + 1) % 10 = 0 := by
    rw [mod_eq_zero_iff, hnext]
    rfl
  have hmod : (s.timecnt.toNat + 1) % 10 ≠ 0 → s.timecnt.toNat + 1 = (s.timecnt.toNat + 1) % 10 := by
    omega
  unfold tim2IRQHandler mhz14SendMeasureComm
  by_cases h4 : (s.timecnt.toNat + 1) % 4 = 0
  · by_cases h10 : (s.timecnt.toNat + 1) % 10 = 0
    · simp only [if_true, hfour, hten, h4, h10]
      exact ⟨h10.symm, by rw [if_pos h4], (if_pos h10).symm⟩
    · simp only [if_true, if_false, hfour, hten, h4, h10]
      exact ⟨hnext.trans (hmod h10), by rw [if_pos h4], (if_neg h10).symm⟩
  · by_cases h10 : (s.timecnt.toNat + 1) % 10 = 0
    · simp only [if_true, if_false, hfour, hten, h4, h10]
      exact ⟨h10.symm, by rw [if_neg h4, List.append_nil], (if_pos h10).symm⟩
    · simp only [if_true, if_false, hfour, hten, h4, h10]
      exact ⟨hnext.trans (hmod h10), by rw [if_neg h4, List.append_nil], (if_neg h10).symm⟩

/-! ## Whole runs -/

def updates : List SamplingEvent → ℕ
  | [] => 0
  | .tim2 true :: es => updates es + 1
  | _ :: es => updates es

theorem updates_append (es es' : List SamplingEvent) :
    updates (es ++ es') = updates es + updates es' := by
  induction es with
  | nil => exact (Nat.zero_add _).symm
  | cons e es ih =>
    rcases e with (_ | _) | ⟨f, led1⟩
    · exact ih
    · rw [List.cons_append, updates, updates, ih, Nat.add_right_comm]
    · exact ih

theorem run_snoc (es : List SamplingEvent) (e : SamplingEvent) :
    Sampling.run (es ++ [e]) = (Sampling.run es).step e := List.foldl_append ..

/-- Between boot and the next interrupt, `timecnt` is the number of updates since the last tenth. -/
theorem timecnt_run (es : List SamplingEvent) :
    (Sampling.run es).timecnt.toNat = updates es % 10 := by
  induction es using List.reverseRecOn with
  | nil => rfl
  | append_singleton es e ih =>
    rw [run_snoc, updates_append]
    rcases e with (_ | _) | ⟨f, led1⟩
    · exact ih
    · have hspec := tim2_spec (s := Sampling.run es) (by rw [ih]; exact Nat.mod_lt _ (by norm_num))
      have hcount := hspec.timecnt
      rw [ih, Nat.mod_add_mod] at hcount
      exact hcount
    · exact ih

def SendsMeasureComm (s : Sampling) : Prop :=
  (tim2IRQHandler s true).usart3 = s.usart3 ++ mhz14ReadComm

/-- The handler sets the flag, whatever the flags are. -/
def SetsSenddata (s : Sampling) : Prop :=
  ∀ flag, hasFlag (tim2IRQHandler { s with tcpClientFlag := flag } true).tcpClientFlag senddataFlag =
    true

theorem sendsMeasureComm_iff {s : Sampling} (h : s.timecnt.toNat < 10) :
    SendsMeasureComm s ↔ (s.timecnt.toNat + 1) % 4 = 0 := by
  unfold SendsMeasureComm
  rw [(tim2_spec h).usart3, List.append_cancel_left_eq]
  split_ifs with h4
  · exact iff_of_true rfl h4
  · exact iff_of_false (List.cons_ne_nil _ _).symm h4

theorem setsSenddata_iff {s : Sampling} (h : s.timecnt.toNat < 10) :
    SetsSenddata s ↔ (s.timecnt.toNat + 1) % 10 = 0 := by
  have hflag (flag : U8) := (tim2_spec (s := { s with tcpClientFlag := flag }) h).flag
  have hseven : senddataFlag < 8 := by decide
  unfold SetsSenddata
  simp only [hflag]
  split_ifs with h10
  · apply iff_of_true _ h10
    intro flag
    rw [Client.hasFlag_setFlag flag hseven, decide_eq_true rfl, Bool.or_true]
  · apply iff_of_false _ h10
    intro hset
    exact absurd (hset 0) (by rw [Client.hasFlag_zero]; exact Bool.false_ne_true)

/-- The update interrupt number `n` asks for the CO2 concentration if `n` is a multiple of 4, and
has the data sent if it is one of 10. -/
def OnSchedule (s : Sampling) (n : ℕ) : Prop :=
  (SendsMeasureComm s ↔ n % 4 = 0) ∧ (SetsSenddata s ↔ n % 10 = 0)

/-- An odd number, or one of the first eleven in twenty. -/
def KeepsBeat (n : ℕ) : Prop := n % 2 = 1 ∨ 0 < n % 20 ∧ n % 20 < 12

/-- The two periods against the counter that one of them resets, over the twenty interrupts after
which both start again. -/
theorem beat_table : ∀ m < 20, (((m % 10 + 1) % 4 = 0 ↔ (m + 1) % 4 = 0) ∧
    ((m % 10 + 1) % 10 = 0 ↔ (m + 1) % 10 = 0)) ↔
      ((m + 1) % 2 = 1 ∨ 0 < (m + 1) % 20 ∧ (m + 1) % 20 < 12) := by decide

theorem beat_iff (m : ℕ) : (((m % 10 + 1) % 4 = 0 ↔ (m + 1) % 4 = 0) ∧
    ((m % 10 + 1) % 10 = 0 ↔ (m + 1) % 10 = 0)) ↔ KeepsBeat (m + 1) := by
  have htable := beat_table (m % 20) (Nat.mod_lt m (by norm_num))
  have hten : m % 20 % 10 = m % 10 := Nat.mod_mod_of_dvd m (by norm_num)
  have hnext {d : ℕ} (hd : d ∣ 20) : (m % 20 + 1) % d = (m + 1) % d := by
    rw [Nat.add_mod, Nat.mod_mod_of_dvd m hd, ← Nat.add_mod]
  rw [hten, hnext (by norm_num), hnext (by norm_num), hnext (by norm_num), hnext (by norm_num)]
    at htable
  exact htable

theorem onSchedule_iff {s : Sampling} {m : ℕ} (h : s.timecnt.toNat = m % 10) :
    OnSchedule s (m + 1) ↔ KeepsBeat (m + 1) := by
  have hlt : s.timecnt.toNat < 10 := by
    rw [h]
    exact Nat.mod_lt m (by norm_num)
  unfold OnSchedule
  rw [sendsMeasureComm_iff hlt, setsSenddata_iff hlt, h]
  exact beat_iff m

/-- In every run, whatever runs between the interrupts. -/
theorem tim2_onSchedule_iff (es : List SamplingEvent) :
    OnSchedule (Sampling.run es) (updates es + 1) ↔ KeepsBeat (updates es + 1) :=
  onSchedule_iff (timecnt_run es)

/-- The twelfth interrupt is the second one behind a reset. -/
theorem tim2_off_schedule :
    ¬ OnSchedule (Sampling.run (List.replicate 11 (.tim2 true))) 12 := by
  intro h
  have hbeat := (onSchedule_iff (timecnt_run _)).mp h
  unfold KeepsBeat at hbeat
  exact absurd hbeat (by decide)

theorem prefix_of_lt_updates {k : ℕ} {es : List SamplingEvent} (h : k < updates es) :
    ∃ es', updates es' = k ∧ es' ++ [.tim2 true] <+: es := by
  induction es using List.reverseRecOn with
  | nil => exact absurd h (Nat.not_lt_zero k)
  | append_singleton es e ih =>
    by_cases hk : k < updates es
    · obtain ⟨es', hcount, hprefix⟩ := ih hk
      exact ⟨es', hcount, hprefix.trans (List.prefix_append es [e])⟩
    · rw [updates_append] at h
      rcases e with (_ | _) | ⟨f, led1⟩
      · exact absurd h hk
      · refine ⟨es, ?_, List.prefix_rfl⟩
        change k < updates es + 1 at h
        omega
      · exact absurd h hk

/-- All interrupts of a run are on schedule as long as there are fewer than twelve of them. -/
theorem run_onSchedule_iff (es : List SamplingEvent) :
    (∀ es', es' ++ [.tim2 true] <+: es → OnSchedule (Sampling.run es') (updates es' + 1)) ↔
      updates es < 12 := by
  constructor
  · intro h
    by_contra hmany
    obtain ⟨es', hcount, hprefix⟩ := prefix_of_lt_updates (show 11 < updates es by omega)
    have hbeat := (onSchedule_iff (timecnt_run es')).mp (h es' hprefix)
    unfold KeepsBeat at hbeat
    rw [hcount] at hbeat
    exact absurd hbeat (by decide)
  · intro hfew es' hprefix
    obtain ⟨rest, rfl⟩ := hprefix
    rw [updates_append, updates_append] at hfew
    change updates es' + 1 + updates rest < 12 at hfew
    apply (onSchedule_iff (timecnt_run es')).mpr
    unfold KeepsBeat
    omega

end EnvirMonitor.Timer
