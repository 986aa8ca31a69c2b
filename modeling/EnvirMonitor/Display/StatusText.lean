import EnvirMonitor.Client.Steps
import EnvirMonitor.Display.KeyInterrupt

/-! The texts that `OLED_ShowInterfaceData` and `OLED_ShowInterfaceFrame` compose in buffers on
their stacks, and which of them fit. -/

namespace EnvirMonitor.Display
open Machine
open Client (World hasFlag flagBit connectFlag startFlag)

inductive Buffer
  | showremoteip
  | showstartFlag
  | showlocalip

def Buffer.size : Buffer → ℕ
  | showremoteip => 20
  | showstartFlag => 20
  | showlocalip => 22

/-- A `sprintf` or `strcpy`; the text is the one before the terminating NUL. -/
structure TextWrite where
  buffer : Buffer
  text : List U8

def TextWrite.Fits (w : TextWrite) : Prop := w.text.length + 1 ≤ w.buffer.size

instance (w : TextWrite) : Decidable w.Fits := inferInstanceAs (Decidable (_ ≤ _))

/-- `"%d.%d.%d.%d"` -/
def dotted (address : Fin 4 → U8) : List U8 :=
  decimal (address 0) ++ text "." ++ decimal (address 1) ++ text "." ++ decimal (address 2) ++
    text "." ++ decimal (address 3)

/-- `(remoteaddr&0xFF)`, `((remoteaddr>>8)&0xFF)` and so on. -/
def addressBytes (remoteaddr : U32) (i : Fin 4) : U8 :=
  ((remoteaddr >>> (8 * (i : ℕ))) &&& 0xFF).setWidth 8

/-- What `OLED_ShowInterfaceData` does before it calls `OLED_ShowString`. -/
def interfaceDataTexts (w : World) (remoteaddr : U32) (index : U8) : List TextWrite :=
  let start := flagBit w.tcpClientFlag startFlag
  let connect := flagBit w.tcpClientFlag connectFlag
  let prestatus := if w.preindex ≠ index ∨ w.prestart ≠ start then 0xFF else w.prestatus
  if index = 1 ∧ prestatus ≠ connect then
    [⟨.showremoteip,
        if hasFlag w.tcpClientFlag connectFlag then text "RMIP:" ++ dotted (addressBytes remoteaddr)
        else text "NO Connect...       "⟩,
      ⟨.showstartFlag,
        if hasFlag w.tcpClientFlag startFlag then text "EnvirData Uploading"
        else text "NO Uploading       "⟩]
  else []

def interfaceFrameTexts (localIP : Fin 4 → U8) (index : U8) : List TextWrite :=
  if index = 1 then [⟨.showlocalip, text "LocalIP:" ++ dotted localIP⟩] else []

/-- The address that is configured is shown as `showlocalip`. -/
example : interfaceFrameTexts ![192, 168, 1, 30] 1 = [⟨.showlocalip, showlocalip⟩] := rfl

/-! ## Lengths -/

def digits (n : U8) : ℕ := if n.toNat < 10 then 1 else if n.toNat < 100 then 2 else 3

def addressDigits (address : Fin 4 → U8) : ℕ :=
  digits (address 0) + digits (address 1) + digits (address 2) + digits (address 3)

theorem length_decimal (n : U8) : (decimal n).length = digits n := by
  revert n
  decide +kernel

theorem length_dotted (address : Fin 4 → U8) :
    (dotted address).length = addressDigits address + 3 := by
  have hdot : (text ".").length = 1 := rfl
  unfold dotted addressDigits
  simp only [List.length_append, length_decimal, hdot]
  omega

theorem flagBit_ne (f : U8) (n : ℕ) : flagBit f n ≠ 0xFF := by
  intro h
  have htop := congrArg (fun b => b.getLsbD 1) h
  simp [flagBit] at htop

/-- Screen 1 is drawn anew: it was not shown, or one of the two flags has changed. -/
def Redraws (w : World) (index : U8) : Prop :=
  index = 1 ∧ (w.preindex ≠ index ∨ w.prestart ≠ flagBit w.tcpClientFlag startFlag ∨
    w.prestatus ≠ flagBit w.tcpClientFlag connectFlag)

instance (w : World) (index : U8) : Decidable (Redraws w index) :=
  inferInstanceAs (Decidable (_ ∧ _))

theorem redraws_iff (w : World) (index : U8) :
    Redraws w index ↔ index = 1 ∧
      (if w.preindex ≠ index ∨ w.prestart ≠ flagBit w.tcpClientFlag startFlag then 0xFF
        else w.prestatus) ≠ flagBit w.tcpClientFlag connectFlag := by
  unfold Redraws
  apply and_congr_right
  intro _
  rw [← or_assoc]
  by_cases hforced : w.preindex ≠ index ∨ w.prestart ≠ flagBit w.tcpClientFlag startFlag
  · rw [if_pos hforced]
    exact iff_of_true (Or.inl hforced) (flagBit_ne _ _).symm
  · rw [if_neg hforced]
    exact or_iff_right hforced

theorem fits_showremoteip_iff (connected : Bool) (address : Fin 4 → U8) :
    TextWrite.Fits ⟨.showremoteip, if connected then text "RMIP:" ++ dotted address
      else text "NO Connect...       "⟩ ↔ connected = true ∧ addressDigits address ≤ 11 := by
  unfold TextWrite.Fits
  cases connected with
  | false =>
    apply iff_of_false
    · show ¬ (text "NO Connect...       ").length + 1 ≤ 20
      decide
    · exact fun h => Bool.false_ne_true h.1
  | true =>
    have hlabel : (text "RMIP:").length = 5 := rfl
    rw [if_pos rfl, List.length_append, length_dotted, hlabel, and_iff_right rfl]
    show 5 + (addressDigits address + 3) + 1 ≤ 20 ↔ _
    omega

theorem fits_showstartFlag (started : Bool) :
    TextWrite.Fits ⟨.showstartFlag, if started then text "EnvirData Uploading"
      else text "NO Uploading       "⟩ := by
  revert started
  decide

theorem fits_showlocalip_iff (address : Fin 4 → U8) :
    TextWrite.Fits ⟨.showlocalip, text "LocalIP:" ++ dotted address⟩ ↔ addressDigits address ≤ 10 := by
  have hlabel : (text "LocalIP:").length = 8 := rfl
  unfold TextWrite.Fits
  rw [List.length_append, length_dotted, hlabel]
  show 8 + (addressDigits address + 3) + 1 ≤ 22 ↔ _
  omega

theorem interfaceDataTexts_fit_iff (w : World) (remoteaddr : U32) (index : U8) :
    (∀ t ∈ interfaceDataTexts w remoteaddr index, t.Fits) ↔
      (Redraws w index → hasFlag w.tcpClientFlag connectFlag = true ∧
        addressDigits (addressBytes remoteaddr) ≤ 11) := by
  have hredraws := redraws_iff w index
  unfold interfaceDataTexts
  dsimp only
  by_cases hdraw : Redraws w index
  · rw [if_pos (hredraws.mp hdraw), List.forall_mem_cons, List.forall_mem_singleton,
      fits_showremoteip_iff, and_iff_left (fits_showstartFlag _)]
    exact ⟨fun h _ => h, fun h => h hdraw⟩
  · rw [if_neg (mt hredraws.mpr hdraw)]
    exact iff_of_true (fun t ht => absurd ht List.not_mem_nil) fun h => absurd h hdraw

theorem interfaceFrameTexts_fit_iff (localIP : Fin 4 → U8) (index : U8) :
    (∀ t ∈ interfaceFrameTexts localIP index, t.Fits) ↔ (index = 1 → addressDigits localIP ≤ 10) := by
  unfold interfaceFrameTexts
  split_ifs with hindex
  · rw [List.forall_mem_singleton, fits_showlocalip_iff]
    exact ⟨fun h _ => h, fun h => h hindex⟩
  · exact iff_of_true (fun t ht => absurd ht List.not_mem_nil) fun h => absurd h hindex

/-- In both functions, for every address and all values of the flags: the texts fit exactly if
screen 1 is redrawn only while a client is connected, and the addresses have few enough digits. -/
theorem statusTexts_fit_iff (w : World) (remoteaddr : U32) (localIP : Fin 4 → U8)
    (index index' : U8) :
    (∀ t ∈ interfaceDataTexts w remoteaddr index ++ interfaceFrameTexts localIP index', t.Fits) ↔
      (Redraws w index → hasFlag w.tcpClientFlag connectFlag = true ∧
        addressDigits (addressBytes remoteaddr) ≤ 11) ∧
      (index' = 1 → addressDigits localIP ≤ 10) := by
  rw [List.forall_mem_append, interfaceDataTexts_fit_iff, interfaceFrameTexts_fit_iff]

/-- Without a client; with one at 192.168.100.200; and with the local address 192.168.100.10. -/
theorem statusTexts_overflow : (∃ t ∈ interfaceDataTexts Client.boot 0 1, ¬ t.Fits) ∧
    (∃ t ∈ interfaceDataTexts { Client.boot with tcpClientFlag := 0x20 } 0xC864A8C0 1, ¬ t.Fits) ∧
    ∃ t ∈ interfaceFrameTexts ![192, 168, 100, 10] 1, ¬ t.Fits := by decide

end EnvirMonitor.Display
