import EnvirMonitor.Sensor.Receiver
import EnvirMonitor.Client.Flag

/-! The loop of `main` with interface 0 selected, a statement at a time, between the handlers that
produce what it shows and sends. The code that keeps track of a change of interface is left out. -/

namespace EnvirMonitor.Firmware
open Machine Client

/-- The next statement: of the two blocks of `OLED_ShowInterfaceData`, then of `main`. The call of
`Send_EnvirPacketData` has a start and an end. -/
inductive Pc
  | testCO2
  | showCO2
  | refreshCO2
  | clearCO2
  | testTempHumi
  | sprintfTemp
  | sprintfHumi
  | showTemp
  | showHumi
  | refreshTempHumi
  | clearTempHumi
  | testSenddata
  | sendStart
  | sendEnd
  | clearSenddata
  | testRevcdata
  | setStart
  | clearRevcdata
  | lwip
  deriving DecidableEq

structure Picture (Text : Type) where
  co2 : Option ℕ
  temp : Option Text
  humi : Option Text

/-- `reading` is the last one that the timer's handler has accepted, `unsent` that no send has
started since `SENDDATA_FLAG` was set last, and `dropped` that the flag was then cleared. -/
structure State (F Text : Type) where
  pc : Pc
  receiver : Sensor.Receiver
  temperature : F
  humidity : F
  tempHumiDataReady : Bool
  flag : U8
  timecnt : U8
  showtemp : Text
  showhumi : Text
  gram : Picture Text
  screen : Picture Text
  reading : Option (F × F)
  unsent : Bool
  dropped : Bool

inductive Event (F : Type)
  | main (isStart : Bool) (callback : Option Flag.Callback)
  | usart3 (rxne : Option U8)
  | tim2 (accepted : Option (F × F))

section
variable {F Text : Type} (sprintf : F → Text)

def callbackAssign : Flag.Callback → Flag.Assign
  | .connect => .setConnect
  | .recv => .setRevcdata
  | .close => .reset

def mainStep (s : State F Text) (isStart : Bool) (callback : Option Flag.Callback) : State F Text :=
  match s.pc with
  | .testCO2 => { s with pc := if s.receiver.co2DataReady then .showCO2 else .testTempHumi }
  | .showCO2 => { s with pc := .refreshCO2, gram := { s.gram with co2 := some s.receiver.co2 } }
  | .refreshCO2 => { s with pc := .clearCO2, screen := s.gram }
  | .clearCO2 => { s with pc := .testTempHumi, receiver := { s.receiver with co2DataReady := false } }
  | .testTempHumi => { s with pc := if s.tempHumiDataReady then .sprintfTemp else .testSenddata }
  | .sprintfTemp => { s with pc := .sprintfHumi, showtemp := sprintf s.temperature }
  | .sprintfHumi => { s with pc := .showTemp, showhumi := sprintf s.humidity }
  | .showTemp => { s with pc := .showHumi, gram := { s.gram with temp := some s.showtemp } }
  | .showHumi => { s with pc := .refreshTempHumi, gram := { s.gram with humi := some s.showhumi } }
  | .refreshTempHumi => { s with pc := .clearTempHumi, screen := s.gram }
  | .clearTempHumi => { s with pc := .testSenddata, tempHumiDataReady := false }
  | .testSenddata =>
    { s with
      pc := if hasFlag s.flag senddataFlag ∧ hasFlag s.flag startFlag then .sendStart
        else .testRevcdata }
  | .sendStart => { s with pc := .sendEnd, unsent := false }
  | .sendEnd => { s with pc := .clearSenddata }
  | .clearSenddata =>
    { s with
      pc := .testRevcdata
      flag := clearFlag s.flag senddataFlag
      dropped := s.dropped || s.unsent }
  | .testRevcdata =>
    { s with
      pc := if hasFlag s.flag revcdataFlag then if isStart then .setStart else .clearRevcdata
        else .lwip }
  | .setStart => { s with pc := .clearRevcdata, flag := setFlag s.flag startFlag }
  | .clearRevcdata => { s with pc := .lwip, flag := clearFlag s.flag revcdataFlag }
  | .lwip =>
    match callback with
    | none => { s with pc := .testCO2 }
    | some callback => { s with flag := (callbackAssign callback).apply s.flag }

def dht11ReadTempHum (s : State F Text) : Option (F × F) → State F Text
  | none => s
  | some (temp, hum) =>
    { s with temperature := temp, humidity := hum, tempHumiDataReady := true, reading := some (temp, hum) }

def tim2IRQHandler (s : State F Text) (accepted : Option (F × F)) : State F Text :=
  let s := dht11ReadTempHum { s with timecnt := s.timecnt + 1 } accepted
  if s.timecnt % 10 = 0 then
    { s with timecnt := 0, flag := setFlag s.flag senddataFlag, unsent := true }
  else s

def usart3IRQHandler (s : State F Text) (rxne : Option U8) : State F Text :=
  { s with receiver := Sensor.usart3IRQHandler s.receiver rxne }

def step (s : State F Text) : Event F → Option (State F Text)
  | .main isStart callback => some (mainStep sprintf s isStart callback)
  | .usart3 rxne => some (usart3IRQHandler s rxne)
  | .tim2 accepted => some (tim2IRQHandler s accepted)

def boot (zero : F) (blank : Text) : State F Text where
  pc := .testCO2
  receiver := Sensor.boot
  temperature := zero
  humidity := zero
  tempHumiDataReady := false
  flag := 0
  timecnt := 0
  showtemp := blank
  showhumi := blank
  gram := ⟨none, none, none⟩
  screen := ⟨none, none, none⟩
  reading := none
  unsent := false
  dropped := false

end

/-! ## The condition -/

def Completes (r : Sensor.Receiver) : Option U8 → Prop
  | none => False
  | some received =>
    let r := Sensor.checkHeader (Sensor.store r received)
    r.revcnt = 9 ∧ Sensor.checksum r.recvMeasureData = r.recvMeasureData 8

instance (r : Sensor.Receiver) : (rxne : Option U8) → Decidable (Completes r rxne)
  | none => isFalse id
  | some _ => inferInstanceAs (Decidable (_ ∧ _))

/-- Between the use of a value and the clearing of its flag. -/
def Pc.usesCO2 : Pc → Bool
  | refreshCO2 => true
  | clearCO2 => true
  | _ => false

def Pc.usesTempHumi : Pc → Bool
  | sprintfHumi => true
  | showTemp => true
  | showHumi => true
  | refreshTempHumi => true
  | clearTempHumi => true
  | _ => false

def Pc.sends : Pc → Bool
  | sendEnd => true
  | clearSenddata => true
  | _ => false

/-- No event of a kind arrives while the main loop is between using the last one and clearing the
flag of the kind. -/
def OutsideWindows {F Text : Type} (s : State F Text) : Event F → Prop
  | .main _ _ => True
  | .usart3 rxne => s.pc.usesCO2 = true → ¬ Completes s.receiver rxne
  | .tim2 accepted => (s.pc.usesTempHumi = true → accepted.isNone = true) ∧
      (s.pc.sends = true → (s.timecnt + 1) % 10 ≠ 0)

instance {F Text : Type} (s : State F Text) : (e : Event F) → Decidable (OutsideWindows s e)
  | .main _ _ => isTrue trivial
  | .usart3 _ => inferInstanceAs (Decidable (_ → _))
  | .tim2 _ => inferInstanceAs (Decidable (_ ∧ _))

/-! ## The three handshakes -/

section
variable {F Text : Type} {sprintf : F → Text} {s : State F Text}

theorem checkHeader_kept (r : Sensor.Receiver) :
    (Sensor.checkHeader r).co2 = r.co2 ∧ (Sensor.checkHeader r).co2DataReady = r.co2DataReady ∧
      (Sensor.checkHeader r).assigned = r.assigned := by
  rw [Sensor.checkHeader]
  split_ifs <;> exact ⟨rfl, rfl, rfl⟩

theorem usart3_quiet {r : Sensor.Receiver} {rxne : Option U8} (h : ¬ Completes r rxne) :
    (Sensor.usart3IRQHandler r rxne).co2 = r.co2 ∧
      (Sensor.usart3IRQHandler r rxne).co2DataReady = r.co2DataReady ∧
      (Sensor.usart3IRQHandler r rxne).assigned = r.assigned := by
  cases rxne with
  | none => exact ⟨rfl, rfl, rfl⟩
  | some received =>
    have hkept := checkHeader_kept (Sensor.store r received)
    rw [Sensor.usart3IRQHandler, Sensor.receiveByte, Sensor.finish]
    split_ifs with hnine hsum
    · exact absurd ⟨hnine, hsum⟩ h
    · exact hkept
    · exact hkept

theorem usart3_completes {r : Sensor.Receiver} {rxne : Option U8} (h : Completes r rxne) :
    (Sensor.usart3IRQHandler r rxne).co2DataReady = true ∧
      (Sensor.usart3IRQHandler r rxne).assigned.getLast? =
        some (Sensor.usart3IRQHandler r rxne).co2 := by
  cases rxne with
  | none => exact h.elim
  | some received =>
    rw [Sensor.usart3IRQHandler, Sensor.receiveByte, Sensor.finish, if_pos h.1, if_pos h.2]
    exact ⟨rfl, List.getLast?_concat ..⟩

def CO2At (s : State F Text) : Prop :=
  match s.pc with
  | .showCO2 => s.receiver.co2DataReady = true ∧ s.screen.co2 = s.gram.co2
  | .refreshCO2 => s.receiver.co2DataReady = true ∧ s.gram.co2 = s.receiver.assigned.getLast?
  | .clearCO2 => s.screen.co2 = s.gram.co2 ∧ s.gram.co2 = s.receiver.assigned.getLast?
  | _ => s.screen.co2 = s.gram.co2 ∧
    (s.receiver.co2DataReady = false → s.gram.co2 = s.receiver.assigned.getLast?)

structure ShowsCO2 (s : State F Text) : Prop where
  fresh : s.receiver.co2DataReady = true → s.receiver.assigned.getLast? = some s.receiver.co2
  shown : CO2At s

theorem co2_mainStep (h : ShowsCO2 s) (isStart : Bool) (callback : Option Flag.Callback) :
    ShowsCO2 (mainStep sprintf s isStart callback) := by
  obtain ⟨pc, receiver, temperature, humidity, ready, flag, timecnt, showtemp, showhumi, gram,
    screen, reading, unsent, dropped⟩ := s
  obtain ⟨hfresh, hat⟩ := h
  cases pc with
  | testCO2 =>
    obtain ⟨revcnt, data, co2, ready', assigned⟩ := receiver
    cases ready' with
    | true => exact ⟨hfresh, rfl, hat.1⟩
    | false => exact ⟨hfresh, hat⟩
  | showCO2 => exact ⟨hfresh, hat.1, (hfresh hat.1).symm⟩
  | refreshCO2 => exact ⟨hfresh, rfl, hat.2⟩
  | clearCO2 => exact ⟨fun h => absurd h Bool.false_ne_true, hat.1, fun _ => hat.2⟩
  | refreshTempHumi => exact ⟨hfresh, rfl, hat.2⟩
  | testTempHumi | testSenddata | testRevcdata =>
    refine ⟨hfresh, ?_⟩
    unfold mainStep
    dsimp only
    split_ifs <;> exact hat
  | lwip =>
    cases callback with
    | none => exact ⟨hfresh, hat⟩
    | some callback => exact ⟨hfresh, hat⟩
  -- the other statements touch none of what is compared
  | _ => exact ⟨hfresh, hat⟩

theorem co2At_synced {s : State F Text} (h : CO2At s) (hpc : s.pc.usesCO2 = false) :
    s.screen.co2 = s.gram.co2 := by
  obtain ⟨pc, _⟩ := s
  cases pc with
  | showCO2 => exact h.2
  | refreshCO2 | clearCO2 => cases hpc
  | _ => exact h.1

theorem co2At_of_ready (hpc : s.pc.usesCO2 = false) (hsync : s.screen.co2 = s.gram.co2)
    (hready : s.receiver.co2DataReady = true) : CO2At s := by
  obtain ⟨pc, _⟩ := s
  cases pc with
  | showCO2 => exact ⟨hready, hsync⟩
  | refreshCO2 | clearCO2 => cases hpc
  | _ => exact ⟨hsync, fun h => absurd (h.symm.trans hready) Bool.false_ne_true⟩

theorem co2_usart3 (h : ShowsCO2 s) {rxne : Option U8} (hguard : OutsideWindows s (.usart3 rxne)) :
    ShowsCO2 (usart3IRQHandler s rxne) := by
  by_cases hc : Completes s.receiver rxne
  · obtain ⟨hready, hlast⟩ := usart3_completes hc
    have hpc : s.pc.usesCO2 = false := Bool.eq_false_of_not_eq_true fun hu => hguard hu hc
    have hsync : s.screen.co2 = s.gram.co2 := co2At_synced h.shown hpc
    exact ⟨fun _ => hlast, co2At_of_ready hpc hsync hready⟩
  · obtain ⟨hco2, hready, hassigned⟩ := usart3_quiet hc
    refine ⟨fun hr => ?_, ?_⟩
    · rw [usart3IRQHandler, hassigned, hco2]
      exact h.fresh (hready.symm.trans hr)
    · have hshown := h.shown
      simpa only [CO2At, usart3IRQHandler, hready, hassigned] using hshown

theorem co2_tim2 (h : ShowsCO2 s) (accepted : Option (F × F)) : ShowsCO2 (tim2IRQHandler s accepted) := by
  rw [tim2IRQHandler]
  cases accepted with
  | none => split_ifs <;> exact ⟨h.fresh, h.shown⟩
  | some reading => split_ifs <;> exact ⟨h.fresh, h.shown⟩

/-! ### Temperature and humidity -/

def TempHumiAt (sprintf : F → Text) (s : State F Text) : Prop :=
  let temp := some (sprintf s.temperature)
  let humi := some (sprintf s.humidity)
  match s.pc with
  | .sprintfTemp => s.tempHumiDataReady = true ∧
    s.screen.temp = s.gram.temp ∧ s.screen.humi = s.gram.humi
  | .sprintfHumi => s.tempHumiDataReady = true ∧ some s.showtemp = temp
  | .showTemp => s.tempHumiDataReady = true ∧ some s.showtemp = temp ∧ some s.showhumi = humi
  | .showHumi => s.tempHumiDataReady = true ∧ s.gram.temp = temp ∧ some s.showhumi = humi
  | .refreshTempHumi => s.tempHumiDataReady = true ∧ s.gram.temp = temp ∧ s.gram.humi = humi
  | .clearTempHumi => s.tempHumiDataReady = true ∧
    (s.screen.temp = s.gram.temp ∧ s.screen.humi = s.gram.humi) ∧ s.gram.temp = temp ∧
      s.gram.humi = humi
  | _ => (s.screen.temp = s.gram.temp ∧ s.screen.humi = s.gram.humi) ∧
    (s.tempHumiDataReady = false → s.gram.temp = s.reading.map (fun r => sprintf r.1) ∧
      s.gram.humi = s.reading.map (fun r => sprintf r.2))

structure ShowsTempHumi (sprintf : F → Text) (s : State F Text) : Prop where
  fresh : s.tempHumiDataReady = true → s.reading = some (s.temperature, s.humidity)
  shown : TempHumiAt sprintf s

theorem tempHumi_mainStep (h : ShowsTempHumi sprintf s) (isStart : Bool)
    (callback : Option Flag.Callback) : ShowsTempHumi sprintf (mainStep sprintf s isStart callback) := by
  obtain ⟨pc, receiver, temperature, humidity, ready, flag, timecnt, showtemp, showhumi, gram,
    screen, reading, unsent, dropped⟩ := s
  obtain ⟨hfresh, hat⟩ := h
  cases pc with
  | refreshCO2 => exact ⟨hfresh, ⟨rfl, rfl⟩, hat.2⟩
  | testTempHumi =>
    cases ready with
    | true => exact ⟨hfresh, rfl, hat.1⟩
    | false => exact ⟨hfresh, hat⟩
  | sprintfTemp => exact ⟨hfresh, hat.1, rfl⟩
  | sprintfHumi => exact ⟨hfresh, hat.1, hat.2, rfl⟩
  | showTemp => exact ⟨hfresh, hat.1, hat.2.1, hat.2.2⟩
  | showHumi => exact ⟨hfresh, hat.1, hat.2.1, hat.2.2⟩
  | refreshTempHumi => exact ⟨hfresh, hat.1, ⟨rfl, rfl⟩, hat.2⟩
  | clearTempHumi =>
    obtain ⟨hready, hsync, htemp, hhumi⟩ := hat
    have hreading : reading = some (temperature, humidity) := hfresh hready
    refine ⟨fun h => absurd h Bool.false_ne_true, hsync, fun _ => ?_⟩
    rw [hreading]
    exact ⟨htemp, hhumi⟩
  | testCO2 | testSenddata | testRevcdata =>
    refine ⟨hfresh, ?_⟩
    unfold mainStep
    dsimp only
    split_ifs <;> exact hat
  | lwip =>
    cases callback with
    | none => exact ⟨hfresh, hat⟩
    | some callback => exact ⟨hfresh, hat⟩
  | _ => exact ⟨hfresh, hat⟩

theorem tempHumi_synced (h : TempHumiAt sprintf s) (hpc : s.pc.usesTempHumi = false) :
    s.screen.temp = s.gram.temp ∧ s.screen.humi = s.gram.humi := by
  obtain ⟨pc, _⟩ := s
  cases pc with
  | sprintfTemp => exact h.2
  | sprintfHumi | showTemp | showHumi | refreshTempHumi | clearTempHumi => cases hpc
  | _ => exact h.1

theorem tempHumiAt_of_ready (hpc : s.pc.usesTempHumi = false)
    (hsync : s.screen.temp = s.gram.temp ∧ s.screen.humi = s.gram.humi)
    (hready : s.tempHumiDataReady = true) : TempHumiAt sprintf s := by
  obtain ⟨pc, _⟩ := s
  cases pc with
  | sprintfTemp => exact ⟨hready, hsync⟩
  | sprintfHumi | showTemp | showHumi | refreshTempHumi | clearTempHumi => cases hpc
  | _ => exact ⟨hsync, fun h => absurd (h.symm.trans hready) Bool.false_ne_true⟩

theorem tempHumi_tim2 (h : ShowsTempHumi sprintf s) {accepted : Option (F × F)}
    (hguard : OutsideWindows s (.tim2 accepted)) :
    ShowsTempHumi sprintf (tim2IRQHandler s accepted) := by
  rw [tim2IRQHandler]
  cases accepted with
  | none => split_ifs <;> exact ⟨h.fresh, h.shown⟩
  | some reading =>
    have hpc : s.pc.usesTempHumi = false :=
      Bool.eq_false_of_not_eq_true fun hu => absurd (hguard.1 hu) (by simp)
    have hsync := tempHumi_synced h.shown hpc
    split_ifs <;> exact ⟨fun _ => rfl, tempHumiAt_of_ready hpc hsync rfl⟩

/-! ### Sending -/

structure SendsAll (s : State F Text) : Prop where
  sent : s.pc.sends = true → s.unsent = false
  kept : s.dropped = false

theorem sends_mainStep (h : SendsAll s) (isStart : Bool) (callback : Option Flag.Callback) :
    SendsAll (mainStep sprintf s isStart callback) := by
  obtain ⟨pc, receiver, temperature, humidity, ready, flag, timecnt, showtemp, showhumi, gram,
    screen, reading, unsent, dropped⟩ := s
  obtain ⟨hsent, hkept⟩ := h
  cases pc with
  | sendStart => exact ⟨fun _ => rfl, hkept⟩
  | sendEnd => exact ⟨fun _ => hsent rfl, hkept⟩
  | clearSenddata =>
    have hunsent : unsent = false := hsent rfl
    exact ⟨fun h => absurd h Bool.false_ne_true, (congrArg₂ or hkept hunsent).trans rfl⟩
  | testCO2 | testTempHumi | testSenddata | testRevcdata =>
    refine ⟨fun hs => ?_, hkept⟩
    unfold mainStep at hs
    dsimp only at hs
    split_ifs at hs <;> exact absurd hs Bool.false_ne_true
  | lwip =>
    cases callback with
    | none => exact ⟨fun h => absurd h Bool.false_ne_true, hkept⟩
    | some callback => exact ⟨fun h => absurd h Bool.false_ne_true, hkept⟩
  | _ => exact ⟨fun h => absurd h Bool.false_ne_true, hkept⟩

theorem sends_tim2 (h : SendsAll s) {accepted : Option (F × F)}
    (hguard : OutsideWindows s (.tim2 accepted)) : SendsAll (tim2IRQHandler s accepted) := by
  rw [tim2IRQHandler]
  cases accepted with
  | none =>
    split_ifs with hten
    · exact ⟨fun hs => absurd hten (hguard.2 hs), h.kept⟩
    · exact ⟨h.sent, h.kept⟩
  | some reading =>
    split_ifs with hten
    · exact ⟨fun hs => absurd hten (hguard.2 hs), h.kept⟩
    · exact ⟨h.sent, h.kept⟩

/-! ### Together -/

structure Handshakes (sprintf : F → Text) (s : State F Text) : Prop where
  co2 : ShowsCO2 s
  tempHumi : ShowsTempHumi sprintf s
  sends : SendsAll s

theorem step_handshakes {s' : State F Text} {e : Event F} (h : Handshakes sprintf s)
    (hguard : OutsideWindows s e) (hs : step sprintf s e = some s') : Handshakes sprintf s' := by
  cases e with
  | main isStart callback =>
    obtain rfl := Option.some.inj hs
    exact ⟨co2_mainStep h.co2 isStart callback, tempHumi_mainStep h.tempHumi isStart callback,
      sends_mainStep h.sends isStart callback⟩
  | usart3 rxne =>
    obtain rfl := Option.some.inj hs
    exact ⟨co2_usart3 h.co2 hguard, ⟨h.tempHumi.fresh, h.tempHumi.shown⟩,
      ⟨h.sends.sent, h.sends.kept⟩⟩
  | tim2 accepted =>
    obtain rfl := Option.some.inj hs
    exact ⟨co2_tim2 h.co2 accepted, tempHumi_tim2 h.tempHumi hguard, sends_tim2 h.sends hguard⟩

theorem boot_handshakes (zero : F) (blank : Text) : Handshakes sprintf (boot zero blank) := by
  refine ⟨⟨fun h => ?_, rfl, fun _ => rfl⟩, ⟨fun h => ?_, ⟨rfl, rfl⟩, fun _ => ⟨rfl, rfl⟩⟩,
    fun h => ?_, rfl⟩
  · exact absurd h Bool.false_ne_true
  · exact absurd h Bool.false_ne_true
  · exact absurd h Bool.false_ne_true

theorem co2At_shown (h : CO2At s) (hclear : s.receiver.co2DataReady = false) :
    s.screen.co2 = s.receiver.assigned.getLast? := by
  obtain ⟨pc, _⟩ := s
  cases pc with
  | showCO2 => exact absurd (hclear.symm.trans h.1) Bool.false_ne_true
  | refreshCO2 => exact absurd (hclear.symm.trans h.1) Bool.false_ne_true
  | clearCO2 => exact h.1.trans h.2
  | _ => exact h.1.trans (h.2 hclear)

theorem tempHumiAt_shown (h : TempHumiAt sprintf s) (hclear : s.tempHumiDataReady = false) :
    s.screen.temp = s.reading.map (fun r => sprintf r.1) ∧
      s.screen.humi = s.reading.map (fun r => sprintf r.2) := by
  obtain ⟨pc, _⟩ := s
  cases pc with
  | sprintfTemp | sprintfHumi | showTemp | showHumi | refreshTempHumi | clearTempHumi =>
    exact absurd (hclear.symm.trans h.1) Bool.false_ne_true
  | _ => exact ⟨h.1.1.trans (h.2 hclear).1, h.1.2.trans (h.2 hclear).2⟩

/-- In every run whose events stay outside the windows, what is shown is the last that was produced
whenever its flag is clear, and `SENDDATA_FLAG` is never cleared without a send. -/
theorem no_event_lost {zero : F} {blank : Text} {es : List (Event F)} {s : State F Text}
    (hguard : Guarded (step sprintf) OutsideWindows (boot zero blank) es)
    (hrun : exec (step sprintf) (boot zero blank) es = some s) :
    (s.receiver.co2DataReady = false → s.screen.co2 = s.receiver.assigned.getLast?) ∧
      (s.tempHumiDataReady = false → s.screen.temp = s.reading.map (fun r => sprintf r.1) ∧
        s.screen.humi = s.reading.map (fun r => sprintf r.2)) ∧
      s.dropped = false := by
  have h := exec_guarded (fun _ _ _ => step_handshakes) (boot_handshakes zero blank) hguard hrun
  exact ⟨co2At_shown h.co2.shown, tempHumiAt_shown h.tempHumi.shown, h.sends.kept⟩

end

/-- The bytes of a reply of the sensor that reports `256 * hi + lo`. -/
def reply (hi lo : U8) : List (Event ℕ) :=
  [0xFF, 0x86, hi, lo, 0, 0, 0, 0, -(0x86 + hi + lo)].map fun byte => .usart3 (some byte)

def passes (n : ℕ) : List (Event ℕ) := List.replicate n (.main false none)

/-- A second reply comes `n` statements after the first, and a reading of the DHT11 with it. -/
def twoReplies (n : ℕ) : List (Event ℕ) :=
  reply 1 0 ++ passes n ++ reply 2 0 ++ .tim2 (some (21, 40)) :: passes (30 - n)

theorem no_event_lost_sample : ∃ s, exec (step id) (boot 0 0) (twoReplies 4) = some s ∧
    (s.receiver.co2DataReady = false → s.screen.co2 = s.receiver.assigned.getLast?) ∧
      (s.tempHumiDataReady = false → s.screen.temp = s.reading.map (fun r => id r.1) ∧
        s.screen.humi = s.reading.map (fun r => id r.2)) ∧
      s.dropped = false :=
  have hguard : Guarded (step id) OutsideWindows (boot 0 0) (twoReplies 4) := by decide
  ⟨_, rfl, no_event_lost hguard rfl⟩

/-- The second reply comes while the first is sent to the display. -/
theorem reply_lost : ∃ s, exec (step id) (boot 0 0) (twoReplies 2) = some s ∧
    s.receiver.co2DataReady = false ∧ s.screen.co2 = some 256 ∧
      s.receiver.assigned.getLast? = some 512 :=
  ⟨_, rfl, rfl, rfl, rfl⟩

end EnvirMonitor.Firmware
