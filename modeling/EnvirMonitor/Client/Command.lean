import EnvirMonitor.Client.Steps

/-! The streams whose reception depends on how they are cut: `tcp_recv_client` copies every pbuf of
a chain to the start of the buffer, and the main loop compares the whole buffer with the command. -/

namespace EnvirMonitor.Client
open Machine

/-! ## The copy loop -/

/-- `"start"` -/
def command : List U8 := [0x73, 0x74, 0x61, 0x72, 0x74]

/-- The byte at `i` of the last piece that is longer than `i`. -/
def lastAt (i : ℕ) : Chain → Option U8
  | [] => none
  | piece :: rest => (lastAt i rest).or piece[i]?

/-- For every letter of the command, the last piece that is long enough has the letter at its
place, no piece is longer than the command, and together they fit the buffer. -/
def Spells (pieces : Chain) : Prop :=
  totLen pieces ≤ tcpClientMaxrxBuffsize ∧ ∀ i, lastAt i pieces = command[i]?

def Spelled (bs : List U8) : Prop := ∃ pieces : Chain, pieces.flatten <:+: bs ∧ Spells pieces

theorem lastAt_append (i : ℕ) (p q : Chain) :
    lastAt i (p ++ q) = (lastAt i q).or (lastAt i p) := by
  induction p with
  | nil => exact Option.or_none.symm
  | cons piece p ih => rw [List.cons_append, lastAt, ih, Option.or_assoc, lastAt]

theorem lastAt_eq_none {i : ℕ} {p : Chain} :
    lastAt i p = none ↔ ∀ piece ∈ p, piece.length ≤ i := by
  induction p with
  | nil => simp [lastAt]
  | cons piece p ih => rw [lastAt, Option.or_eq_none_iff, ih, List.forall_mem_cons,
      List.getElem?_eq_none_iff, and_comm]

theorem lastAt_none_mono {i j : ℕ} {p : Chain} (hij : i ≤ j) (h : lastAt i p = none) :
    lastAt j p = none :=
  lastAt_eq_none.mpr fun piece hp => (lastAt_eq_none.mp h piece hp).trans hij

theorem lastAt_eq_some {i : ℕ} {b : U8} {p : Chain} (h : lastAt i p = some b) :
    ∃ before piece after, p = before ++ piece :: after ∧ piece[i]? = some b ∧
      lastAt i after = none := by
  induction p with
  | nil => cases h
  | cons piece p ih =>
    rcases Option.or_eq_some_iff.mp h with h | ⟨hnone, h⟩
    · obtain ⟨before, piece', after, rfl, hrest⟩ := ih h
      exact ⟨piece :: before, piece', after, rfl, hrest⟩
    · exact ⟨[], piece, p, rfl, h, hnone⟩

theorem getElem?_memcpy (buf src : List U8) (i : ℕ) :
    (memcpy buf src)[i]? = src[i]?.or buf[i]? := by
  rw [memcpy, List.getElem?_append]
  split_ifs with hi
  · rw [List.getElem?_eq_getElem hi, Option.some_or]
  · rw [List.getElem?_eq_none (Nat.le_of_not_lt hi), Option.none_or, List.getElem?_drop]
    congr 1
    omega

theorem totLen_cons (piece : List U8) (p : Chain) : totLen (piece :: p) = piece.length + totLen p :=
  List.sum_cons

theorem getElem?_copyRevdata {p : Chain} {dataLen : ℕ} {buf : List U8}
    (h : dataLen + totLen p ≤ tcpClientMaxrxBuffsize) (i : ℕ) :
    (copyRevdata p dataLen buf)[i]? = (lastAt i p).or buf[i]? := by
  induction p generalizing dataLen buf with
  | nil => rfl
  | cons piece p ih =>
    rw [totLen_cons] at h
    rw [copyRevdata, if_neg (by omega), if_neg (by omega), ih (by omega), getElem?_memcpy, lastAt,
      Option.or_assoc]

theorem copyRevdata_fits {p : Chain} {dataLen : ℕ} (hlen : dataLen ≤ tcpClientMaxrxBuffsize)
    (buf : List U8) : ∃ q : Chain, q.flatten <+: p.flatten ∧
      dataLen + totLen q ≤ tcpClientMaxrxBuffsize ∧
      copyRevdata p dataLen buf = copyRevdata q dataLen buf := by
  induction p generalizing dataLen buf with
  | nil => exact ⟨[], List.prefix_refl _, hlen, rfl⟩
  | cons piece p ih =>
    by_cases hroom : piece.length > tcpClientMaxrxBuffsize - dataLen
    · have htake : (piece.take (tcpClientMaxrxBuffsize - dataLen)).length =
          tcpClientMaxrxBuffsize - dataLen := List.length_take_of_le hroom.le
      refine ⟨[piece.take (tcpClientMaxrxBuffsize - dataLen)], ?_, ?_, ?_⟩
      · rw [List.flatten_singleton, List.flatten_cons]
        exact (List.take_prefix _ _).trans (List.prefix_append _ _)
      · rw [totLen_cons, htake, totLen, List.map_nil, List.sum_nil]
        omega
      · rw [copyRevdata, if_pos hroom, if_pos (by omega), copyRevdata, htake, if_neg (by omega),
          if_neg (by omega), copyRevdata]
    · have hnext : dataLen + piece.length ≤ tcpClientMaxrxBuffsize := by omega
      obtain ⟨q, hinit, htot, hcopy⟩ := ih hnext (memcpy buf piece)
      refine ⟨piece :: q, ?_, ?_, ?_⟩
      · rw [List.flatten_cons, List.flatten_cons]
        exact (List.prefix_append_right_inj piece).mpr hinit
      · rw [totLen_cons]
        omega
      · rw [copyRevdata, if_neg hroom, if_neg (by omega), hcopy, copyRevdata, if_neg hroom,
          if_neg (by omega)]

/-- `memset(tcp_client_revdata, 0, sizeof(tcp_client_revdata))` -/
def cleared : List U8 := List.replicate tcpClientMaxrxBuffsize 0

theorem command_ne_zero {i : ℕ} {b : U8} (h : command[i]? = some b) : b ≠ 0 := by
  have hmem : b ∈ command := List.mem_of_getElem? h
  rintro rfl
  exact absurd hmem (by decide)

theorem getElem?_of_isStart {buf : List U8} (h : isStart buf = true) :
    (∀ i < 5, buf[i]? = command[i]?) ∧ (buf[5]? = none ∨ buf[5]? = some 0) := by
  have htake : buf.takeWhile (· ≠ 0) = command := of_decide_eq_true h
  have hsplit : command ++ buf.dropWhile (· ≠ 0) = buf := by
    rw [← htake]
    exact List.takeWhile_append_dropWhile
  refine ⟨fun i hi => ?_, ?_⟩
  · rw [← hsplit]
    exact List.getElem?_append_left hi
  · rw [← hsplit, List.getElem?_append_right (by decide)]
    cases hrest : buf.dropWhile (· ≠ 0) with
    | nil => exact Or.inl rfl
    | cons b rest =>
      have hzero : (decide (b ≠ 0)) = false := by
        have hhead := List.head?_dropWhile_not (fun b : U8 => decide (b ≠ 0)) buf
        rwa [hrest] at hhead
      have hb : b = 0 := by simpa using hzero
      exact Or.inr (congrArg some hb)

theorem isStart_of_getElem? {buf : List U8} (h : ∀ i < 5, buf[i]? = command[i]?)
    (hzero : buf[5]? = some 0) : isStart buf = true := by
  have hsplit : buf = command ++ 0 :: buf.drop 6 := by
    apply List.ext_getElem?
    intro i
    rcases lt_trichotomy i 5 with hi | rfl | hi
    · rw [h i hi, List.getElem?_append_left hi]
    · rw [hzero]
      rfl
    · obtain ⟨k, rfl⟩ := Nat.exists_eq_add_of_lt hi
      rw [List.getElem?_append_right (by simp [command]; omega)]
      simp only [command, List.length_cons, List.length_nil]
      rw [show 5 + k + 1 - (0 + 1 + 1 + 1 + 1 + 1) = k + 1 by omega, List.getElem?_cons_succ,
        List.getElem?_drop]
      congr 1
      omega
  rw [hsplit]
  exact decide_eq_true rfl

theorem lastAt_singles {i : ℕ} (hi : 0 < i) (bs : List U8) : lastAt i (bs.map fun b => [b]) = none :=
  lastAt_eq_none.mpr fun piece hp => by
    obtain ⟨b, -, rfl⟩ := List.mem_map.mp hp
    exact hi

theorem flatten_singles (bs : List U8) : (bs.map fun b => [b]).flatten = bs := by
  induction bs with
  | nil => rfl
  | cons b bs ih => rw [List.map_cons, List.flatten_cons, ih, List.singleton_append]

theorem totLen_eq (p : Chain) : totLen p = p.flatten.length := (List.length_flatten).symm

theorem command_beyond {i : ℕ} (hi : 5 ≤ i) : command[i]? = none := List.getElem?_eq_none hi

section
variable {bs piece : List U8} {after : Chain}

theorem take_five_beyond {i : ℕ} (hi : 5 ≤ i) : (piece.take 5)[i]? = none :=
  List.getElem?_eq_none ((List.length_take_le 5 piece).trans hi)

theorem spelled_of_empty_rest (hpart : piece ++ after.flatten <:+: bs)
    (hshort : ∀ i < 5, (lastAt i after).or piece[i]? = command[i]?)
    (hempty : lastAt 0 after = none) : Spelled bs := by
  refine ⟨[piece.take 5], ?_, ?_, fun i => ?_⟩
  · rw [List.flatten_singleton]
    exact ((List.take_prefix 5 piece).trans (List.prefix_append _ _)).isInfix.trans hpart
  · have hfive : 5 ≤ tcpClientMaxrxBuffsize := by decide
    rw [totLen_cons, totLen, List.map_nil, List.sum_nil, List.length_take]
    omega
  · rw [lastAt, lastAt, Option.none_or]
    rcases Nat.lt_or_ge i 5 with hi | hi
    · rw [List.getElem?_take_of_lt hi, ← hshort i hi, lastAt_none_mono (Nat.zero_le i) hempty,
        Option.none_or]
    · rw [take_five_beyond hi, command_beyond hi]

/-- The rest of the piece is cut into bytes, of which only the first index sees anything. -/
theorem spelled_of_rest (hpart : piece ++ after.flatten <:+: bs)
    (hfit : piece.length + totLen after ≤ tcpClientMaxrxBuffsize)
    (hshort : ∀ i < 5, (lastAt i after).or piece[i]? = command[i]?) (hafter : lastAt 5 after = none)
    {b : U8} (hfirst : lastAt 0 after = some b) : Spelled bs := by
  refine ⟨piece.take 5 :: ((piece.drop 5).map fun b => [b]) ++ after, ?_, ?_, fun i => ?_⟩
  · rw [List.flatten_append, List.flatten_cons, flatten_singles, List.take_append_drop]
    exact hpart
  · rw [totLen_eq, List.flatten_append, List.flatten_cons, flatten_singles, List.take_append_drop,
      List.length_append, ← totLen_eq]
    exact hfit
  · rw [lastAt_append, lastAt]
    rcases Nat.lt_or_ge i 5 with hi | hi
    · rw [List.getElem?_take_of_lt hi, ← hshort i hi]
      rcases Nat.eq_zero_or_pos i with rfl | hpos
      · rw [hfirst, Option.some_or, Option.some_or]
      · rw [lastAt_singles hpos, Option.none_or]
    · rw [take_five_beyond hi, command_beyond hi, lastAt_none_mono hi hafter,
        lastAt_singles (by omega), Option.none_or, Option.none_or]

end

/-- Where the longest pieces end with a zero behind the command, a shorter cut spells it too. -/
theorem spelled_of_lastAt {bs : List U8} {q : Chain} (hq : q.flatten <:+: bs)
    (htot : totLen q ≤ tcpClientMaxrxBuffsize) (h : ∀ i < 5, lastAt i q = command[i]?)
    (hfive : lastAt 5 q = none ∨ lastAt 5 q = some 0) : Spelled bs := by
  rcases hfive with hfive | hfive
  · refine ⟨q, hq, htot, fun i => ?_⟩
    rcases Nat.lt_or_ge i 5 with hi | hi
    · exact h i hi
    · rw [command_beyond hi, lastAt_none_mono hi hfive]
  obtain ⟨before, piece, after, rfl, hpiece, hafter⟩ := lastAt_eq_some hfive
  have hlen : 5 < piece.length := (List.getElem?_eq_some_iff.mp hpiece).1
  have hshort (i : ℕ) (hi : i < 5) : (lastAt i after).or piece[i]? = command[i]? := by
    rw [← h i hi, lastAt_append, lastAt, List.getElem?_eq_getElem (hi.trans hlen), Option.or_some,
      Option.some_or]
  have hpart : piece ++ after.flatten <:+: bs := by
    rw [List.flatten_append, List.flatten_cons] at hq
    exact (List.suffix_append _ _).isInfix.trans hq
  have hfit : piece.length + totLen after ≤ tcpClientMaxrxBuffsize := by
    rw [totLen_eq, List.flatten_append, List.flatten_cons, List.length_append,
      List.length_append] at htot
    rw [totLen_eq]
    omega
  cases hfirst : lastAt 0 after with
  | none => exact spelled_of_empty_rest hpart hshort hfirst
  | some b => exact spelled_of_rest hpart hfit hshort hafter hfirst

theorem spelled_of_isStart {bs : List U8} {p : Chain} (hp : p.flatten <:+: bs)
    (h : isStart (copyRevdata p 0 cleared) = true) : Spelled bs := by
  obtain ⟨q, hinit, htot, hcopy⟩ := copyRevdata_fits (Nat.zero_le _) cleared
  rw [hcopy] at h
  obtain ⟨hletters, hfive⟩ := getElem?_of_isStart h
  have hget (i : ℕ) (hi : i < tcpClientMaxrxBuffsize) :
      (copyRevdata q 0 cleared)[i]? = (lastAt i q).or (some 0) := by
    rw [getElem?_copyRevdata htot, cleared, List.getElem?_replicate, if_pos hi]
  rw [Nat.zero_add] at htot
  refine spelled_of_lastAt (hinit.isInfix.trans hp) htot (fun i hi => ?_) ?_
  · have hletter := hletters i hi
    rw [hget i (hi.trans (by decide))] at hletter
    cases hlast : lastAt i q with
    | some b => rwa [hlast, Option.some_or] at hletter
    | none =>
      rw [hlast, Option.none_or] at hletter
      exact absurd rfl (command_ne_zero hletter.symm)
  · rw [hget 5 (by decide)] at hfive
    cases hlast : lastAt 5 q with
    | none => exact Or.inl rfl
    | some b => simpa [hlast] using hfive

theorem isStart_of_spells {p : Chain} (h : Spells p) :
    isStart (copyRevdata p 0 cleared) = true := by
  obtain ⟨htot, hlast⟩ := h
  have hget (i : ℕ) : (copyRevdata p 0 cleared)[i]? = (command[i]?).or cleared[i]? := by
    rw [getElem?_copyRevdata (by omega), hlast]
  refine isStart_of_getElem? (fun i hi => ?_) ?_
  · rw [hget, List.getElem?_eq_getElem (by exact hi), Option.some_or]
  · rw [hget]
    rfl

theorem not_isStart_byte (b : U8) : isStart (copyRevdata [[b]] 0 cleared) = false := by
  refine Bool.eq_false_of_not_eq_true fun h => ?_
  have hone := (getElem?_of_isStart h).1 1 (by decide)
  rw [getElem?_copyRevdata (by simp [totLen, tcpClientMaxrxBuffsize])] at hone
  cases hone

/-! ## Runs that deliver a stream -/

/-- The connection is open, and what it has received is given back to the window. -/
structure Open (w : World) (id : ℕ) : Prop where
  live : w.live id = true
  state : (w.pcbs id).connected
  recv : (w.pcbs id).recv = .tcpRecvClient
  arg : ∃ es, (w.pcbs id).callbackArg = some es ∧ (w.es es).state = .connected
  refused : (w.pcbs id).refused = false
  rxClosed : (w.pcbs id).rxClosed = false
  rcvWnd : (w.pcbs id).rcvWnd = tcpWnd

/-- The stream arrives on connection `id`, cut in some way into callbacks and into the pbufs of
their chains, with passes of the main loop and ticks anywhere between them and a pass at the end. -/
inductive Delivers (id : ℕ) : List U8 → List Step → Prop
  | last (index : U8) (memOk pbufOk fits : Bool) (wr : Err) :
    Delivers id [] [.mainPass index memOk pbufOk fits wr]
  | pass (index : U8) (memOk pbufOk fits : Bool) (wr : Err) {bs : List U8} {run : List Step} :
    Delivers id bs run → Delivers id bs (.mainPass index memOk pbufOk fits wr :: run)
  | tick {bs : List U8} {run : List Step} : Delivers id bs run → Delivers id bs (.tim2 :: run)
  | data {p : Chain} (hp : p.flatten ≠ []) {bs : List U8} {run : List Step} :
    Delivers id bs run → Delivers id (p.flatten ++ bs) (.data id p .ok :: run)

def Independent (w : World) (id : ℕ) (bs : List U8) : Prop :=
  ∀ run run' w₁ w₂, Delivers id bs run → Delivers id bs run' → exec step w run = some w₁ →
    exec step w run' = some w₂ →
    hasFlag w₁.tcpClientFlag startFlag = hasFlag w₂.tcpClientFlag startFlag

def Pending (w : World) : Prop :=
  hasFlag w.tcpClientFlag revcdataFlag = true ∧ isStart w.tcpClientRevdata = true

structure Quiet (w w' : World) : Prop where
  live : w'.live = w.live
  pcbs : ∀ id, w'.pcbs id = { w.pcbs id with sent := (w'.pcbs id).sent }
  es : w'.es = w.es
  revdata : w'.tcpClientRevdata = w.tcpClientRevdata

theorem Quiet.refl (w : World) : Quiet w w := ⟨rfl, fun _ => rfl, rfl, rfl⟩

theorem Quiet.trans {w₁ w₂ w₃ : World} (h : Quiet w₁ w₂) (h' : Quiet w₂ w₃) : Quiet w₁ w₃ where
  live := h'.live.trans h.live
  pcbs id := by rw [h'.pcbs id, h.pcbs id]
  es := h'.es.trans h.es
  revdata := h'.revdata.trans h.revdata

theorem Open.quiet {w w' : World} {id : ℕ} (h : Open w id) (hq : Quiet w w') : Open w' id := by
  obtain ⟨es, harg, hstate⟩ := h.arg
  have hpcb := hq.pcbs id
  refine ⟨?_, ?_, ?_, ⟨es, ?_, ?_⟩, ?_, ?_, ?_⟩
  · rw [hq.live]
    exact h.live
  · rw [hpcb]
    exact h.state
  · rw [hpcb]
    exact h.recv
  · rw [hpcb]
    exact harg
  · rw [hq.es]
    exact hstate
  · rw [hpcb]
    exact h.refused
  · rw [hpcb]
    exact h.rxClosed
  · rw [hpcb]
    exact h.rcvWnd

theorem inputData_open {w : World} {id : ℕ} (h : Open w id) (p : Chain) : ∃ es,
    inputData w id p .ok =
      tcpRecved { (w.setPcb id { w.pcbs id with rcvWnd := (w.pcbs id).rcvWnd - totLen p }).emit
          (.esAccess es) with
        tcpClientRevdata := copyRevdata p 0 cleared
        tcpClientFlag := setFlag w.tcpClientFlag revcdataFlag } id (totLen p) := by
  obtain ⟨-, -, hrecv, ⟨es, harg, hes⟩, hrefused, hclosed, -⟩ := h
  refine ⟨es, ?_⟩
  simp [inputData, eventRecv, tcpRecvClient, World.setPcb, World.emit, hrefused, hclosed, hrecv,
    harg, hes, cleared]

theorem data_open {w : World} {id : ℕ} (h : Open w id) {p : Chain} (hlen : totLen p ≤ tcpWnd) :
    Open (inputData w id p .ok) id ∧ (inputData w id p .ok).mode = w.mode ∧
      (inputData w id p .ok).tcpClientFlag = setFlag w.tcpClientFlag revcdataFlag ∧
      (inputData w id p .ok).tcpClientRevdata = copyRevdata p 0 cleared := by
  obtain ⟨es, hdata⟩ := inputData_open h p
  have hwnd := h.rcvWnd
  have hpcb : (inputData w id p .ok).pcbs id = w.pcbs id := by
    have hback : min ((tcpWnd - totLen p + totLen p) % 2 ^ 16) tcpWnd = tcpWnd := by
      rw [Nat.sub_add_cancel hlen]
      rfl
    rw [hdata, tcpRecved, configure_pcbs_self]
    simp only [World.emit, World.setPcb, Function.update_self, hwnd, hback]
    rw [← hwnd]
  obtain ⟨hlive, hstate, hrecv, harg, hrefused, hclosed, -⟩ := h
  rw [hdata] at hpcb ⊢
  rw [← hpcb] at hstate hrecv harg hrefused hclosed hwnd
  exact ⟨⟨hlive, hstate, hrecv, harg, hrefused, hclosed, hwnd⟩, rfl, rfl, rfl⟩

/-! ### A pass of the main loop -/

theorem quiet_oledShowInterfaceData (w : World) (index : U8) :
    Quiet w (oledShowInterfaceData w index) ∧
      (oledShowInterfaceData w index).tcpClientFlag = w.tcpClientFlag ∧
      (oledShowInterfaceData w index).mode = w.mode := by
  simp only [oledShowInterfaceData]
  split_ifs <;> exact ⟨⟨rfl, fun _ => rfl, rfl, rfl⟩, rfl, rfl⟩

theorem quiet_sendEnvirPacketData (w : World) (memOk pbufOk fits : Bool) (wr : Err) :
    Quiet w (sendEnvirPacketData w memOk pbufOk fits wr) ∧
      (sendEnvirPacketData w memOk pbufOk fits wr).tcpClientFlag = w.tcpClientFlag ∧
      (memOk = true → pbufOk = true →
        (sendEnvirPacketData w memOk pbufOk fits wr).mode = w.mode) := by
  cases memOk with
  | false => exact ⟨⟨rfl, fun _ => rfl, rfl, rfl⟩, rfl, fun h => by simp at h⟩
  | true =>
    cases pbufOk with
    | false => exact ⟨⟨rfl, fun _ => rfl, rfl, rfl⟩, rfl, fun _ h => by simp at h⟩
    | true =>
      cases hclient : w.clientPcb with
      | none =>
        cases fits <;> simp only [sendEnvirPacketData, tcpClientSenddata, World.emit, hclient] <;>
          exact ⟨⟨rfl, fun _ => rfl, rfl, rfl⟩, rfl, fun _ _ => rfl⟩
      | some i =>
        have hsent (id : ℕ) : Function.update w.pcbs i { w.pcbs i with sent := true } id =
            { w.pcbs id with
              sent := (Function.update w.pcbs i { w.pcbs i with sent := true } id).sent } := by
          rcases eq_or_ne id i with rfl | hi
          · rw [Function.update_self]
          · rw [Function.update_of_ne hi]
        cases fits <;> simp only [sendEnvirPacketData, tcpClientSenddata, World.emit, hclient] <;>
          exact ⟨⟨rfl, hsent, rfl, rfl⟩, rfl, fun _ _ => rfl⟩

theorem receiveCommand_spec (w : World) : Quiet w (receiveCommand w) ∧
    (receiveCommand w).mode = w.mode ∧
    hasFlag (receiveCommand w).tcpClientFlag revcdataFlag = false ∧
    hasFlag (receiveCommand w).tcpClientFlag startFlag = (hasFlag w.tcpClientFlag startFlag ||
      (hasFlag w.tcpClientFlag revcdataFlag && isStart w.tcpClientRevdata)) := by
  have hkeep (f : U8) : hasFlag (clearFlag f revcdataFlag) startFlag = hasFlag f startFlag := by
    rw [hasFlag_clearFlag f (by decide)]
    exact Bool.and_true _
  have hclear (f : U8) : hasFlag (clearFlag f revcdataFlag) revcdataFlag = false := by
    rw [hasFlag_clearFlag f (by decide)]
    exact Bool.and_false _
  cases hrevc : hasFlag w.tcpClientFlag revcdataFlag with
  | false =>
    rw [receiveCommand, hrevc, if_neg Bool.false_ne_true]
    exact ⟨Quiet.refl w, rfl, hrevc, by simp⟩
  | true =>
    cases hstart : isStart w.tcpClientRevdata with
    | false =>
      rw [receiveCommand, hrevc, if_pos rfl, hstart, if_neg Bool.false_ne_true]
      exact ⟨⟨rfl, fun _ => rfl, rfl, rfl⟩, rfl, hclear _, by simpa using hkeep _⟩
    | true =>
      rw [receiveCommand, hrevc, if_pos rfl, hstart, if_pos rfl]
      refine ⟨⟨rfl, fun _ => rfl, rfl, rfl⟩, rfl, hclear _, ?_⟩
      rw [hkeep, hasFlag_setFlag _ (by decide)]
      simp

/-- A pass sets `START_FLAG` when the buffer holds the command and it is the first since the
buffer was filled. -/
theorem mainPass_spec (w : World) (index : U8) (memOk pbufOk fits : Bool) (wr : Err) :
    Quiet w (mainPass w index memOk pbufOk fits wr) ∧
      (memOk = true → pbufOk = true → w.mode = .running →
        (mainPass w index memOk pbufOk fits wr).mode = .running) ∧
      hasFlag (mainPass w index memOk pbufOk fits wr).tcpClientFlag startFlag =
        (hasFlag w.tcpClientFlag startFlag ||
          (hasFlag w.tcpClientFlag revcdataFlag && isStart w.tcpClientRevdata)) ∧
      (hasFlag w.tcpClientFlag startFlag = false →
        hasFlag (mainPass w index memOk pbufOk fits wr).tcpClientFlag revcdataFlag = false) := by
  obtain ⟨holed, hflag, hmode⟩ := quiet_oledShowInterfaceData w index
  rw [mainPass]
  generalize oledShowInterfaceData w index = w₁ at holed hflag hmode
  rw [← hflag, ← hmode, ← holed.revdata]
  dsimp only
  split_ifs with hsend hrun
  · obtain ⟨hq, hflag', hmode'⟩ := quiet_sendEnvirPacketData w₁ memOk pbufOk fits wr
    generalize sendEnvirPacketData w₁ memOk pbufOk fits wr = w₂ at hq hflag' hmode' hrun
    obtain ⟨hr, hrmode, -, hrstart⟩ :=
      receiveCommand_spec { w₂ with tcpClientFlag := clearFlag w₂.tcpClientFlag senddataFlag }
    have hclear : Quiet w₂ { w₂ with tcpClientFlag := clearFlag w₂.tcpClientFlag senddataFlag } :=
      ⟨rfl, fun _ => rfl, rfl, rfl⟩
    refine ⟨(holed.trans hq).trans (hclear.trans hr), fun _ _ _ => hrmode.trans hrun, ?_, fun h => ?_⟩
    · rw [hrstart, hasFlag_clearFlag _ (by decide), hflag', hsend.2]
      rfl
    · exact absurd (hsend.2.symm.trans h) (by simp)
  · obtain ⟨hq, hflag', hmode'⟩ := quiet_sendEnvirPacketData w₁ memOk pbufOk fits wr
    refine ⟨holed.trans hq, fun hm hp hw => (hmode' hm hp).trans hw, ?_, fun h => ?_⟩
    · rw [hflag', hsend.2, Bool.true_or]
    · exact absurd (hsend.2.symm.trans h) (by simp)
  · obtain ⟨hr, hrmode, hrevc, hrstart⟩ := receiveCommand_spec w₁
    exact ⟨holed.trans hr, fun _ _ hw => hrmode.trans hw, hrstart, fun _ => hrevc⟩

/-! ### What a run sets -/

theorem tim2_spec (w : World) : Quiet w (tim2IRQHandler w) ∧
    (tim2IRQHandler w).mode = w.mode ∧
    hasFlag (tim2IRQHandler w).tcpClientFlag startFlag = hasFlag w.tcpClientFlag startFlag ∧
    hasFlag (tim2IRQHandler w).tcpClientFlag revcdataFlag = hasFlag w.tcpClientFlag revcdataFlag := by
  have hkeep {n : ℕ} (hn : n < 8) (hne : n ≠ senddataFlag) (f : U8) :
      hasFlag (setFlag f senddataFlag) n = hasFlag f n := by
    rw [hasFlag_setFlag f hn, decide_eq_false hne, Bool.or_false]
  simp only [tim2IRQHandler]
  split_ifs
  · exact ⟨⟨rfl, fun _ => rfl, rfl, rfl⟩, rfl, hkeep (by decide) (by decide) _,
      hkeep (by decide) (by decide) _⟩
  · exact ⟨⟨rfl, fun _ => rfl, rfl, rfl⟩, rfl, rfl, rfl⟩

theorem pending_tim2 (w : World) : Pending (tim2IRQHandler w) ↔ Pending w := by
  obtain ⟨hq, -, -, hrevc⟩ := tim2_spec w
  rw [Pending, Pending, hrevc, hq.revdata]

theorem totLen_of_enabled {w : World} {id : ℕ} (h : Open w id) {p : Chain}
    (hen : enabled w (.data id p .ok)) : totLen p ≤ tcpWnd := by
  obtain ⟨-, -, hrefused | hlen⟩ := hen
  · exact absurd (h.refused.symm.trans hrefused) Bool.false_ne_true
  · rwa [h.rcvWnd] at hlen

theorem data_start {w : World} {id : ℕ} (h : Open w id) {p : Chain} (hlen : totLen p ≤ tcpWnd) :
    hasFlag (inputData w id p .ok).tcpClientFlag startFlag = hasFlag w.tcpClientFlag startFlag ∧
      (Pending (inputData w id p .ok) ↔ isStart (copyRevdata p 0 cleared) = true) := by
  obtain ⟨-, -, hflag, hrevdata⟩ := data_open h hlen
  have hset (n : ℕ) (hn : n < 8) : hasFlag (inputData w id p .ok).tcpClientFlag n =
      (hasFlag w.tcpClientFlag n || decide (n = revcdataFlag)) := by
    rw [hflag, hasFlag_setFlag _ hn]
  refine ⟨?_, ?_⟩
  · rw [hset startFlag (by decide)]
    exact Bool.or_false _
  · rw [Pending, hrevdata, hset revcdataFlag (by decide), decide_eq_true rfl, Bool.or_true]
    exact and_iff_right rfl

theorem start_kept {id : ℕ} {bs : List U8} {run : List Step} (hd : Delivers id bs run) {w w' : World}
    (hopen : Open w id) (hrun : exec step w run = some w')
    (hstart : hasFlag w.tcpClientFlag startFlag = true) :
    hasFlag w'.tcpClientFlag startFlag = true := by
  induction hd generalizing w with
  | last index memOk pbufOk fits wr =>
    obtain ⟨-, hrest⟩ := exec_react hrun
    obtain rfl := Option.some.inj hrest
    rw [react, (mainPass_spec w index memOk pbufOk fits wr).2.2.1, hstart, Bool.true_or]
  | pass index memOk pbufOk fits wr _ ih =>
    obtain ⟨-, hrest⟩ := exec_react hrun
    obtain ⟨hq, -, hset, -⟩ := mainPass_spec w index memOk pbufOk fits wr
    exact ih (hopen.quiet hq) hrest (hset.trans (by rw [hstart, Bool.true_or]))
  | tick _ ih =>
    obtain ⟨-, hrest⟩ := exec_react hrun
    obtain ⟨hq, -, hset, -⟩ := tim2_spec w
    exact ih (hopen.quiet hq) hrest (hset.trans hstart)
  | data _ _ ih =>
    obtain ⟨hen, hrest⟩ := exec_react hrun
    have hlen := totLen_of_enabled hopen hen
    exact ih (data_open hopen hlen).1 hrest ((data_start hopen hlen).1.trans hstart)

/-- `START_FLAG` is set only by a command left over or one that the stream spells. -/
theorem spelled_of_start {id : ℕ} {bs : List U8} {run : List Step} (hd : Delivers id bs run)
    {w w' : World} (hopen : Open w id) (hrun : exec step w run = some w')
    (hset : hasFlag w'.tcpClientFlag startFlag = true) :
    hasFlag w.tcpClientFlag startFlag = true ∨ Pending w ∨ Spelled bs := by
  induction hd generalizing w with
  | last index memOk pbufOk fits wr =>
    obtain ⟨-, hrest⟩ := exec_react hrun
    obtain rfl := Option.some.inj hrest
    rw [react, (mainPass_spec w index memOk pbufOk fits wr).2.2.1, Bool.or_eq_true_iff,
      Bool.and_eq_true_iff] at hset
    exact hset.imp_right Or.inl
  | pass index memOk pbufOk fits wr _ ih =>
    obtain ⟨-, hrest⟩ := exec_react hrun
    obtain ⟨hq, -, hstart, hrevc⟩ := mainPass_spec w index memOk pbufOk fits wr
    rcases ih (hopen.quiet hq) hrest with h | h | h
    · have h := hstart.symm.trans h
      rw [Bool.or_eq_true_iff, Bool.and_eq_true_iff] at h
      exact h.imp_right Or.inl
    · cases hw : hasFlag w.tcpClientFlag startFlag with
      | true => exact Or.inl rfl
      | false => exact absurd ((hrevc hw).symm.trans h.1) Bool.false_ne_true
    · exact Or.inr (Or.inr h)
  | tick _ ih =>
    obtain ⟨-, hrest⟩ := exec_react hrun
    obtain ⟨hq, -, hstart, -⟩ := tim2_spec w
    exact (ih (hopen.quiet hq) hrest).imp hstart.symm.trans (Or.imp_left (pending_tim2 w).mp)
  | @data p _ bs _ _ ih =>
    obtain ⟨hen, hrest⟩ := exec_react hrun
    have hlen := totLen_of_enabled hopen hen
    obtain ⟨hstart, hpending⟩ := data_start hopen hlen
    rcases ih (data_open hopen hlen).1 hrest with h | h | ⟨pieces, hpart, h⟩
    · exact Or.inl (hstart.symm.trans h)
    · have hpart : p.flatten <:+: p.flatten ++ bs := (List.prefix_append _ _).isInfix
      exact Or.inr (Or.inr (spelled_of_isStart hpart (hpending.mp h)))
    · exact Or.inr (Or.inr ⟨pieces, hpart.trans (List.suffix_append _ _).isInfix, h⟩)

theorem start_of_pending {id : ℕ} {run : List Step} (hd : Delivers id [] run) {w w' : World}
    (hopen : Open w id) (hrun : exec step w run = some w') (hpending : Pending w) :
    hasFlag w'.tcpClientFlag startFlag = true := by
  generalize hbs : ([] : List U8) = bs at hd
  induction hd generalizing w with
  | last index memOk pbufOk fits wr =>
    obtain ⟨-, hrest⟩ := exec_react hrun
    obtain rfl := Option.some.inj hrest
    rw [react, (mainPass_spec w index memOk pbufOk fits wr).2.2.1, hpending.1, hpending.2,
      Bool.and_true, Bool.or_true]
  | pass index memOk pbufOk fits wr hd _ =>
    obtain ⟨-, hrest⟩ := exec_react hrun
    obtain ⟨hq, -, hstart, -⟩ := mainPass_spec w index memOk pbufOk fits wr
    refine start_kept hd (hopen.quiet hq) hrest (hstart.trans ?_)
    rw [hpending.1, hpending.2, Bool.and_true, Bool.or_true]
  | tick _ ih =>
    obtain ⟨-, hrest⟩ := exec_react hrun
    exact ih (hopen.quiet (tim2_spec w).1) hrest ((pending_tim2 w).mpr hpending) hbs
  | data hp _ _ => exact absurd (List.append_eq_nil_iff.mp hbs.symm).1 hp

/-! ### Two ways to deliver a stream -/

def bytewise (id : ℕ) (bs : List U8) : List Step := bs.map fun b => .data id [[b]] .ok

def pass : Step := .mainPass 0 true true true .ok

theorem delivers_bytewise {id : ℕ} {bs' : List U8} {run : List Step} (h : Delivers id bs' run)
    (bs : List U8) : Delivers id (bs ++ bs') (bytewise id bs ++ run) := by
  induction bs with
  | nil => exact h
  | cons b bs ih => exact Delivers.data (p := [[b]]) (by simp) ih

theorem delivers_whole (id : ℕ) (bs : List U8) : Delivers id bs (bytewise id bs ++ [pass]) := by
  have hlast : Delivers id [] [pass] := Delivers.last 0 true true true .ok
  have hd := delivers_bytewise hlast bs
  rwa [List.append_nil] at hd

theorem step_data {w : World} {id : ℕ} (h : Open w id) (hmode : w.mode = .running) {p : Chain}
    (hlen : totLen p ≤ tcpWnd) : step w (.data id p .ok) = some (inputData w id p .ok) := by
  refine if_pos ⟨⟨hmode, h.live⟩, h.state, Or.inr ?_⟩
  rw [h.rcvWnd]
  exact hlen

theorem exec_bytewise {w : World} {id : ℕ} (h : Open w id) (hmode : w.mode = .running)
    (bs : List U8) : ∃ w', exec step w (bytewise id bs) = some w' ∧ Open w' id ∧
      w'.mode = .running ∧
      hasFlag w'.tcpClientFlag startFlag = hasFlag w.tcpClientFlag startFlag ∧
      (Pending w' → bs = [] ∧ Pending w) := by
  induction bs generalizing w with
  | nil => exact ⟨w, rfl, h, hmode, rfl, fun hp => ⟨rfl, hp⟩⟩
  | cons b bs ih =>
    have hlen : totLen [[b]] ≤ tcpWnd := by simp [totLen, tcpWnd, tcpMss]
    obtain ⟨hopen, hmode', -, -⟩ := data_open h hlen
    obtain ⟨hstart, hpending⟩ := data_start h hlen
    obtain ⟨w', hrun, hopen', hrunning, hstart', hpending'⟩ := ih hopen (hmode'.trans hmode)
    refine ⟨w', ?_, hopen', hrunning, hstart'.trans hstart, fun hp => ?_⟩
    · rw [bytewise, List.map_cons, exec, step_data h hmode hlen]
      exact hrun
    · have hbyte := hpending.mp (hpending' hp).2
      rw [not_isStart_byte] at hbyte
      exact absurd hbyte Bool.false_ne_true

theorem exec_pass {w : World} (hmode : w.mode = .running) :
    ∃ w', step w pass = some w' ∧ Quiet w w' ∧ w'.mode = .running ∧
      hasFlag w'.tcpClientFlag startFlag = (hasFlag w.tcpClientFlag startFlag ||
        (hasFlag w.tcpClientFlag revcdataFlag && isStart w.tcpClientRevdata)) := by
  obtain ⟨hq, hrunning, hstart, -⟩ := mainPass_spec w 0 true true true .ok
  exact ⟨_, if_pos hmode, hq, hrunning rfl rfl hmode, hstart⟩

/-- A stream that arrives a byte at a time sets nothing. -/
theorem unset_bytewise {w : World} {id : ℕ} (h : Open w id) (hmode : w.mode = .running)
    (hstart : hasFlag w.tcpClientFlag startFlag = false) {bs : List U8} (hbs : bs ≠ []) :
    ∃ run w', Delivers id bs run ∧ exec step w run = some w' ∧
      hasFlag w'.tcpClientFlag startFlag = false := by
  obtain ⟨w₁, hrun, -, hmode₁, hstart₁, hpending⟩ := exec_bytewise h hmode bs
  obtain ⟨w₂, hpass, -, -, hstart₂⟩ := exec_pass hmode₁
  refine ⟨bytewise id bs ++ [pass], w₂, ?_, ?_, ?_⟩
  · exact delivers_whole id bs
  · rw [exec_append, hrun, Option.bind_some, exec, hpass]
    rfl
  · refine Bool.eq_false_of_not_eq_true fun hset => ?_
    rw [hstart₂, hstart₁, hstart, Bool.false_or, Bool.and_eq_true_iff] at hset
    exact hbs (hpending hset).1

theorem set_of_pending {w : World} {id : ℕ} (h : Open w id) (hmode : w.mode = .running)
    (hpending : Pending w) (bs : List U8) : ∃ run w', Delivers id bs run ∧
      exec step w run = some w' ∧ hasFlag w'.tcpClientFlag startFlag = true := by
  obtain ⟨w₁, hpass, hq, hmode₁, hstart₁⟩ := exec_pass hmode
  obtain ⟨w₂, hrun, hopen₂, hmode₂, hstart₂, -⟩ := exec_bytewise (h.quiet hq) hmode₁ bs
  obtain ⟨w₃, hpass₃, -, -, hstart₃⟩ := exec_pass hmode₂
  refine ⟨pass :: (bytewise id bs ++ [pass]), w₃, ?_, ?_, ?_⟩
  · exact Delivers.pass 0 true true true .ok (delivers_whole id bs)
  · rw [exec, hpass, Option.bind_some, exec_append, hrun, Option.bind_some, exec, hpass₃]
    rfl
  · rw [hstart₃, hstart₂, hstart₁, hpending.1, hpending.2]
    simp

theorem set_of_spelled {w : World} {id : ℕ} (h : Open w id) (hmode : w.mode = .running)
    {bs : List U8} (hbs : Spelled bs) : ∃ run w', Delivers id bs run ∧
      exec step w run = some w' ∧ hasFlag w'.tcpClientFlag startFlag = true := by
  obtain ⟨pieces, ⟨before, after, rfl⟩, hspells⟩ := hbs
  have hlen : totLen pieces ≤ tcpWnd := hspells.1.trans (by decide)
  obtain ⟨w₁, hrun, hopen, hmode₁, -⟩ := exec_bytewise h hmode before
  obtain ⟨hopen₂, hmode₂, -, -⟩ := data_open hopen hlen
  have hpending : Pending (inputData w₁ id pieces .ok) :=
    (data_start hopen hlen).2.mpr (isStart_of_spells hspells)
  obtain ⟨run, w₃, hd, hrun₃, hset⟩ := set_of_pending hopen₂ (hmode₂.trans hmode₁) hpending after
  refine ⟨bytewise id before ++ .data id pieces .ok :: run, w₃, ?_, ?_, hset⟩
  · rw [List.append_assoc]
    refine delivers_bytewise (Delivers.data (fun hnil => ?_) hd) before
    have hfirst : lastAt 0 pieces = some 0x73 := hspells.2 0
    obtain ⟨_, piece, _, rfl, hpiece, -⟩ := lastAt_eq_some hfirst
    obtain rfl : piece = [] := List.flatten_eq_nil_iff.mp hnil piece (by simp)
    cases hpiece
  · rw [exec_append, hrun, Option.bind_some, exec, step_data hopen hmode₁ hlen]
    exact hrun₃

theorem length_of_spelled {bs : List U8} (h : Spelled bs) : 5 ≤ bs.length := by
  obtain ⟨pieces, hpart, -, hlast⟩ := h
  have hfive : lastAt 4 pieces = some 0x74 := hlast 4
  obtain ⟨before, piece, after, rfl, hpiece, -⟩ := lastAt_eq_some hfive
  have hlen : 4 < piece.length := (List.getElem?_eq_some_iff.mp hpiece).1
  have hpart := hpart.length_le
  rw [List.flatten_append, List.flatten_cons, List.length_append, List.length_append] at hpart
  omega

theorem not_independent {w : World} {id : ℕ} {bs : List U8}
    (hset : ∃ run w', Delivers id bs run ∧ exec step w run = some w' ∧
      hasFlag w'.tcpClientFlag startFlag = true)
    (hunset : ∃ run w', Delivers id bs run ∧ exec step w run = some w' ∧
      hasFlag w'.tcpClientFlag startFlag = false) : ¬ Independent w id bs := by
  obtain ⟨run, w₁, hd, hrun, hset⟩ := hset
  obtain ⟨run', w₂, hd', hrun', hunset⟩ := hunset
  intro hind
  have hsame := hind run run' w₁ w₂ hd hd' hrun hrun'
  rw [hset, hunset] at hsame
  exact absurd hsame.symm Bool.false_ne_true

theorem start_unchanged {w : World} {id : ℕ} (h : Open w id) {bs : List U8} (hbs : ¬ Spelled bs)
    (hpending : ¬ Pending w) {run : List Step} (hd : Delivers id bs run) {w' : World}
    (hrun : exec step w run = some w') :
    hasFlag w'.tcpClientFlag startFlag = hasFlag w.tcpClientFlag startFlag := by
  rw [Bool.eq_iff_iff]
  refine ⟨fun hset => ?_, start_kept hd h hrun⟩
  rcases spelled_of_start hd h hrun hset with hs | hs | hs
  · exact hs
  · exact absurd hs hpending
  · exact absurd hs hbs

/-- On an open connection the cut of the stream makes no difference exactly when `START_FLAG` is
set already, or when no part of the stream spells the command and none is left over before it. -/
theorem independent_iff {w : World} {id : ℕ} (h : Open w id) (hmode : w.mode = .running)
    (bs : List U8) : Independent w id bs ↔ hasFlag w.tcpClientFlag startFlag = true ∨
      ¬ Spelled bs ∧ (Pending w → bs = []) := by
  constructor
  · intro hind
    cases hstart : hasFlag w.tcpClientFlag startFlag with
    | true => exact Or.inl rfl
    | false =>
      refine Or.inr ⟨fun hbs => ?_, fun hpending => by_contra fun hbs => ?_⟩
      · have hne : bs ≠ [] := List.ne_nil_of_length_pos ((length_of_spelled hbs).trans' (by decide))
        exact not_independent (set_of_spelled h hmode hbs) (unset_bytewise h hmode hstart hne) hind
      · exact not_independent (set_of_pending h hmode hpending bs)
          (unset_bytewise h hmode hstart hbs) hind
  · rintro (hstart | ⟨hbs, hleft⟩) run run' w₁ w₂ hd hd' hrun hrun'
    · rw [start_kept hd h hrun hstart, start_kept hd' h hrun' hstart]
    · by_cases hpending : Pending w
      · obtain rfl := hleft hpending
        rw [start_of_pending hd h hrun hpending, start_of_pending hd' h hrun' hpending]
      · rw [start_unchanged h hbs hpending hd hrun, start_unchanged h hbs hpending hd' hrun']

/-! ## A fresh connection -/

theorem open_inputSynAck {w : World} {id : ℕ} (hlive : w.live id = true)
    (hpcb : w.pcbs id = { Pcb.fresh with state := .synSent }) :
    Open (inputSynAck w id true) id := by
  have hfresh : (inputSynAck w id true).pcbs id =
      ⟨.established, some w.nextEs, .tcpRecvClient, true, true, true, tcpWnd, false, false⟩ := by
    simp only [inputSynAck, tcpConnectClient, if_true, tcpErr, tcpSent, tcpPoll, tcpRecv, tcpArg]
    simp [World.newEs, World.setPcb, World.setEs, World.emit, Pcb.fresh, hpcb]
  have hes : (inputSynAck w id true).es w.nextEs = ⟨.connected, id, false⟩ :=
    Function.update_self (f := w.es) ..
  constructor
  · exact hlive
  · rw [hfresh]
    exact Or.inl rfl
  · rw [hfresh]
  · exact ⟨w.nextEs, by rw [hfresh], by rw [hes]⟩
  · rw [hfresh]
  · rw [hfresh]
  · rw [hfresh]

def joined : World := react (react boot (.wkUp .connected)) (.synAck 0 true)

theorem open_joined : Open joined 0 := open_inputSynAck rfl rfl

/-- `"stop"` -/
theorem independent_stop : Independent joined 0 [0x73, 0x74, 0x6F, 0x70] :=
  (independent_iff open_joined rfl _).mpr
    (Or.inr ⟨fun h => absurd (length_of_spelled h) (by decide), fun h => absurd h.1 (by decide)⟩)

/-- The command in one pbuf, and in two pbufs of one callback. -/
theorem start_dependent : ¬ Independent joined 0 command := by
  intro h
  have hone : Delivers 0 command [.data 0 [[0x73, 0x74, 0x61, 0x72, 0x74]] .ok, pass] :=
    Delivers.data (p := [[0x73, 0x74, 0x61, 0x72, 0x74]]) (by decide)
      (Delivers.last 0 true true true .ok)
  have htwo : Delivers 0 command [.data 0 [[0x73, 0x74, 0x61], [0x72, 0x74]] .ok, pass] :=
    Delivers.data (p := [[0x73, 0x74, 0x61], [0x72, 0x74]]) (by decide)
      (Delivers.last 0 true true true .ok)
  have hsame := h _ _ _ _ hone htwo rfl rfl
  revert hsame
  decide

end EnvirMonitor.Client
