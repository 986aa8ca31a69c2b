import EnvirMonitor.Ethernet.Chip

/-! `DM9000_Receive_Packet` against the receive memory. The calls take frames from a queue:
good frames are delivered, the others are freed on the way. -/

namespace EnvirMonitor.Ethernet
open Machine Prog

structure RxFrame where
  status : U16
  length : U16
  words : List U16
  words_length : words.length = (length.toNat + 1) / 2

namespace RxFrame

def bytes (f : RxFrame) : List U8 := (unpack f.words).take f.length.toNat

def Good (f : RxFrame) : Prop := f.status &&& 0xBF00 = 0 ∧ 64 ≤ f.length.toNat

instance (f : RxFrame) : Decidable f.Good := inferInstanceAs (Decidable (_ ∧ _))

def size (f : RxFrame) : ℕ := f.words.length + 2

theorem badFrame_iff {f : RxFrame} (h : f.length.toNat ≤ dm9000PktMax) :
    BadFrame f.status f.length ↔ ¬ f.Good := by
  simp only [BadFrame, Good, not_and_or, not_le, or_iff_left (Nat.not_lt.mpr h), ne_eq]

end RxFrame

/-! ## Copying -/

def readFrom (word : ℕ → U16) : ℕ → ℕ → List U16
  | _, 0 => []
  | pos, n + 1 => word pos :: readFrom word (pos + 1) n

theorem readFrom_add (word : ℕ → U16) (pos m n : ℕ) :
    readFrom word pos (m + n) = readFrom word pos m ++ readFrom word (pos + m) n := by
  induction m generalizing pos with
  | zero => rw [Nat.zero_add]; rfl
  | succ m ih =>
    rw [Nat.succ_add, readFrom, readFrom, ih, List.cons_append, Nat.add_right_comm, Nat.add_assoc]

theorem length_readFrom (word : ℕ → U16) (pos n : ℕ) : (readFrom word pos n).length = n := by
  induction n generalizing pos with
  | zero => rfl
  | succ n ih => rw [readFrom, List.length_cons, ih]

def RxSegment.bytes (seg : RxSegment) : List U8 := (unpack seg.words).take seg.len

def RxPbuf.bytes (p : RxPbuf) : List U8 := p.segments.flatMap RxSegment.bytes

def Board.advance (b : Board) (n : ℕ) : Board := { b with rxPtr := b.rxPtr + n }

theorem advance_advance (b : Board) (m n : ℕ) : (b.advance m).advance n = b.advance (m + n) := by
  simp only [Board.advance, Nat.add_assoc]

theorem read_mrcmd {b : Board} (h : b.index = Reg.MRCMD) :
    b.read = b.rxWord b.rxPtr ∧ b.afterRead = b.advance 1 := by
  simp [Board.read, Board.afterRead, Board.advance, h]

theorem run_getData_mrcmd {α : Type} {b : Board} (h : b.index = Reg.MRCMD) (f : U16 → Driver α) :
    (getData >>= f).run board b = (f (b.rxWord b.rxPtr)).run board (b.advance 1) := by
  obtain ⟨hread, hnext⟩ := read_mrcmd h
  rw [run_getData, ← hread, ← hnext]
  rfl

theorem run_copyWords {b : Board} (h : b.index = Reg.MRCMD) (len : ℕ) :
    ∃ words, (copyWords len).run board b = some (words, b.advance ((len + 1) / 2)) ∧
      words.1 = readFrom b.rxWord b.rxPtr ((len + 1) / 2) := by
  induction len using copyWords.induct generalizing b with
  | case1 => exact ⟨⟨[], rfl⟩, rfl, rfl⟩
  | case2 =>
    refine ⟨⟨[b.rxWord b.rxPtr], rfl⟩, ?_, rfl⟩
    rw [copyWords, run_getData_mrcmd h]
    rfl
  | case3 len ih =>
    have hlen : (len + 2 + 1) / 2 = 1 + (len + 1) / 2 := by omega
    obtain ⟨words, hrun, hwords⟩ := ih (b := b.advance 1) h
    refine ⟨⟨b.rxWord b.rxPtr :: words.1, by rw [List.length_cons, words.2]; omega⟩, ?_, ?_⟩
    · rw [copyWords, run_getData_mrcmd h, run_bind, hrun, advance_advance, ← hlen]
      rfl
    · change b.rxWord b.rxPtr :: words.1 = _
      rw [hlen, Nat.add_comm 1, readFrom, hwords]
      rfl

/-- Only the last segment of a chain may have an odd length. -/
def Aligned : List ℕ → Prop
  | [] => True
  | len :: lens => (lens = [] ∨ len % 2 = 0) ∧ Aligned lens

theorem run_copySegments {b : Board} (h : b.index = Reg.MRCMD) {lens : List ℕ}
    (hlens : Aligned lens) :
    ∃ segs, (copySegments lens).run board b = some (segs, b.advance ((lens.sum + 1) / 2)) ∧
      segs.map RxSegment.len = lens ∧
      segs.flatMap RxSegment.bytes =
        (unpack (readFrom b.rxWord b.rxPtr ((lens.sum + 1) / 2))).take lens.sum := by
  induction lens generalizing b with
  | nil => exact ⟨[], rfl, rfl, rfl⟩
  | cons len lens ih =>
    obtain ⟨words, hcopy, hwords⟩ := run_copyWords h len
    obtain ⟨segs, hrest, hmap, hbytes⟩ := ih (b := b.advance ((len + 1) / 2)) h hlens.2
    have hsplit : (len + lens.sum + 1) / 2 = (len + 1) / 2 + (lens.sum + 1) / 2 := by
      rcases hlens.1 with hnil | heven
      · rw [hnil, List.sum_nil]
        omega
      · omega
    refine ⟨⟨len, words.1, words.2⟩ :: segs, ?_, by rw [List.map_cons, hmap], ?_⟩
    · rw [copySegments, run_bind_of hcopy, run_bind_of hrest, run_pure, List.sum_cons, hsplit,
        advance_advance]
    · rw [List.flatMap_cons, hbytes, List.sum_cons, hsplit, readFrom_add, unpack_append]
      show (unpack words.1).take len ++ _ = _
      rw [hwords]
      rcases hlens.1 with hnil | heven
      · simp [hnil, readFrom, unpack]
      · have hfull : (unpack (readFrom b.rxWord b.rxPtr ((len + 1) / 2))).length = len := by
          rw [length_unpack, length_readFrom]
          omega
        rw [List.take_of_length_le hfull.le, List.take_append, hfull, Nat.add_sub_cancel_left,
          List.take_of_length_le (i := len + lens.sum) (hfull.le.trans (Nat.le_add_right ..))]
        rfl

/-! ## The chain that `pbuf_alloc` returns -/

theorem poolTail_spec {fuel remLen : ℕ} (h : remLen ≤ fuel) :
    (poolTail fuel remLen).sum = remLen ∧ Aligned (poolTail fuel remLen) ∧
      (poolTail fuel remLen = [] ↔ remLen = 0) := by
  induction fuel generalizing remLen with
  | zero =>
    obtain rfl := Nat.le_zero.mp h
    exact ⟨rfl, trivial, by simp [poolTail]⟩
  | succ fuel ih =>
    rw [poolTail]
    split_ifs with hpos
    · have hless : remLen - min remLen pbufPoolBufsize ≤ fuel := by
        simp only [pbufPoolBufsize]
        omega
      obtain ⟨hsum, haligned, hnil⟩ := ih hless
      refine ⟨?_, ⟨?_, haligned⟩, ?_⟩
      · rw [List.sum_cons, hsum]
        omega
      · rw [hnil]
        simp only [pbufPoolBufsize]
        omega
      · simp only [false_iff]
        omega
    · exact ⟨by simp; omega, trivial, by simp; omega⟩

theorem poolSegments_sum (length : ℕ) : (poolSegments length).sum = length := by
  rw [poolSegments, List.sum_cons, (poolTail_spec (Nat.sub_le ..)).1]
  omega

theorem poolSegments_aligned (length : ℕ) : Aligned (poolSegments length) := by
  obtain ⟨-, haligned, hnil⟩ := poolTail_spec (Nat.sub_le length (min length pbufPoolBufsize))
  refine ⟨?_, haligned⟩
  rw [hnil]
  simp only [pbufPoolBufsize]
  omega

theorem poolTail_le {fuel remLen len : ℕ} (h : len ∈ poolTail fuel remLen) :
    len ≤ pbufPoolBufsize := by
  induction fuel generalizing remLen with
  | zero => simp [poolTail] at h
  | succ fuel ih =>
    rw [poolTail] at h
    split_ifs at h
    · rcases List.mem_cons.mp h with rfl | h
      · exact min_le_right ..
      · exact ih h
    · simp at h

theorem poolSegments_stores {length len : ℕ} (h : len ∈ poolSegments length) :
    2 * ((len + 1) / 2) ≤ pbufPoolBufsize := by
  have hle : len ≤ pbufPoolBufsize := by
    rcases List.mem_cons.mp h with rfl | h
    · exact min_le_right ..
    · exact poolTail_le h
  simp only [pbufPoolBufsize] at hle ⊢
  omega

/-! ## The receive memory -/

def Laid (ready word : ℕ → U16) : ℕ → List RxFrame → Prop
  | pos, [] => lowByte (ready pos) = 0
  | pos, f :: frames => lowByte (ready pos) = 1 ∧ word pos = f.status ∧
      word (pos + 1) = f.length ∧ readFrom word (pos + 2) f.words.length = f.words ∧
      Laid ready word (pos + f.size) frames

/-- The queue of frames in the receive memory, each with the pbuf it will be copied to. -/
structure Holds (b : Board) (queue : List (RxFrame × ℕ)) : Prop where
  laid : Laid b.rxReady b.rxWord b.rxPtr (queue.map Prod.fst)
  ids : queue.map Prod.snd = List.range' b.allocs queue.length
  short : ∀ x ∈ queue, x.1.length.toNat ≤ dm9000PktMax
  granted : ∀ n, b.granted n = true

def Board.afterFrame (b : Board) (f : RxFrame) : Board :=
  { b with index := Reg.MRCMD, rxPtr := b.rxPtr + f.size, allocs := b.allocs + 1 }

def Board.free (b : Board) (p : ℕ) : Board := { b with freed := b.freed ++ [p] }

structure Carries (p : RxPbuf) (x : RxFrame × ℕ) : Prop where
  id : p.id = x.2
  lens : p.segments.map RxSegment.len = poolSegments x.1.length.toNat
  bytes : p.bytes = x.1.bytes

theorem Holds.tail {b : Board} {f : RxFrame} {id : ℕ} {queue : List (RxFrame × ℕ)}
    (h : Holds b ((f, id) :: queue)) : Holds (b.afterFrame f) queue := by
  have hids := h.ids
  rw [List.map_cons, List.length_cons, List.range'_succ, List.cons.injEq] at hids
  exact ⟨h.laid.2.2.2.2, hids.2, fun x hx => h.short x (List.mem_cons_of_mem _ hx), h.granted⟩

theorem run_peek {α : Type} (b : Board) (g : U16 → Driver α) :
    (dm9000ReadReg Reg.MRCMDX >>= fun _ => getData >>= g).run board b =
      (g (b.rxReady b.rxPtr)).run board { b with index := Reg.MRCMDX } := rfl

theorem run_readHeader {b : Board} (h : b.granted b.allocs = true) :
    readHeader.run board b =
      some ((b.rxWord b.rxPtr, b.rxWord (b.rxPtr + 1), some b.allocs),
        { b with index := Reg.MRCMD, rxPtr := b.rxPtr + 2, allocs := b.allocs + 1 }) := by
  have hrun : readHeader.run board b =
      some ((b.rxWord b.rxPtr, b.rxWord (b.rxPtr + 1), if b.granted b.allocs then some b.allocs
        else none), { b with index := Reg.MRCMD, rxPtr := b.rxPtr + 2, allocs := b.allocs + 1 }) :=
    rfl
  rw [hrun, if_pos h]

theorem run_fillPbuf {b : Board} (h : b.index = Reg.MRCMD) {f : RxFrame}
    (hwords : readFrom b.rxWord b.rxPtr f.words.length = f.words) (fuel id : ℕ) :
    ∃ p, Carries p (f, id) ∧ (fillPbuf fuel f.length (some id)).run board b =
      some (some p, b.advance f.words.length) := by
  obtain ⟨segs, hrun, hlens, hbytes⟩ := run_copySegments h (poolSegments_aligned f.length.toNat)
  rw [poolSegments_sum, ← f.words_length] at hrun hbytes
  refine ⟨⟨id, segs⟩, ⟨rfl, hlens, ?_⟩, ?_⟩
  · rw [RxPbuf.bytes, hbytes, hwords]
    rfl
  · rw [fillPbuf, run_bind, hrun]
    rfl

theorem run_receive_cons {b : Board} {f : RxFrame} {id : ℕ} {queue : List (RxFrame × ℕ)}
    (h : Holds b ((f, id) :: queue)) (fuel : ℕ) :
    ∃ p, Carries p (f, id) ∧ (dm9000ReceivePacket (fuel + 1)).run board b =
      if f.Good then some (some p, b.afterFrame f)
      else (dm9000ReceivePacket fuel).run board ((b.afterFrame f).free id) := by
  obtain ⟨hready, hstatus, hlength, hwords, -⟩ := h.laid
  have hid : id = b.allocs := by
    have := h.ids
    rw [List.map_cons, List.length_cons, List.range'_succ, List.cons.injEq] at this
    exact this.1
  subst hid
  have hshort := h.short (f, b.allocs) (List.mem_cons_self ..)
  obtain ⟨p, hp, hfill⟩ := run_fillPbuf (b := { b with
    index := Reg.MRCMD, rxPtr := b.rxPtr + 2, allocs := b.allocs + 1 }) rfl hwords fuel b.allocs
  refine ⟨p, hp, ?_⟩
  have hbad := RxFrame.badFrame_iff hshort
  have hboard : Board.advance { b with
      index := Reg.MRCMD, rxPtr := b.rxPtr + 2, allocs := b.allocs + 1 } f.words.length =
        b.afterFrame f := by
    simp only [Board.advance, Board.afterFrame, RxFrame.size, Nat.add_assoc, Nat.add_comm 2]
  rw [dm9000ReceivePacket, run_peek]
  simp only [hready]
  rw [if_pos (by decide), if_neg (by decide),
    run_bind_of (run_readHeader (b := { b with index := Reg.MRCMDX }) (h.granted _))]
  simp only [hstatus, hlength]
  rw [run_bind_of hfill, hboard]
  -- a bad frame has been read and is freed before the retry
  by_cases hgood : f.Good
  · rw [if_pos hgood, if_neg (fun hb => hbad.mp hb hgood)]
    rfl
  · rw [if_neg hgood, if_pos (hbad.mpr hgood), resetIfTooBig, if_neg (Nat.not_lt.mpr hshort)]
    have hpid : p.id = b.allocs := hp.id
    rw [← hpid]
    rfl

theorem run_receive_nil {b : Board} (h : Holds b []) (fuel : ℕ) :
    ∃ b', (dm9000ReceivePacket (fuel + 1)).run board b = some (none, b') ∧ Holds b' [] ∧
      b'.rxPtr = b.rxPtr ∧ b'.freed = b.freed := by
  have hready : lowByte (b.rxReady b.rxPtr) = 0 := h.laid
  refine ⟨after board [.setReg Reg.ISR, .putData isrPts, .setReg Reg.IMR,
    .putData (imrAll.setWidth 16)] b, ?_, ?_, rfl, rfl⟩
  · rw [dm9000ReceivePacket, run_peek]
    simp only [hready]
    rw [if_neg (by decide)]
    rfl
  · exact ⟨h.laid, rfl, h.short, h.granted⟩

/-! ## Calls -/

/-- What a call makes of the queue: the first good frame, the pbufs freed before it, the rest. -/
def deliver : List (RxFrame × ℕ) → Option (RxFrame × ℕ) × List ℕ × List (RxFrame × ℕ)
  | [] => (none, [], [])
  | x :: queue =>
    if x.1.Good then (some x, [], queue)
    else ((deliver queue).1, x.2 :: (deliver queue).2.1, (deliver queue).2.2)

def Delivers : Option (RxFrame × ℕ) → Option RxPbuf → Prop
  | none, none => True
  | some x, some p => Carries p x
  | _, _ => False

def sizes (frames : List (RxFrame × ℕ)) : ℕ := (frames.map fun x => x.1.size).sum

theorem run_receive {b : Board} {queue : List (RxFrame × ℕ)} (h : Holds b queue) {fuel : ℕ}
    (hfuel : queue.length < fuel) :
    ∃ p b', (dm9000ReceivePacket fuel).run board b = some (p, b') ∧
      Delivers (deliver queue).1 p ∧ Holds b' (deliver queue).2.2 ∧
      b'.freed = b.freed ++ (deliver queue).2.1 ∧
      b'.rxPtr + sizes (deliver queue).2.2 = b.rxPtr + sizes queue := by
  obtain ⟨fuel, rfl⟩ := Nat.exists_eq_add_one_of_ne_zero (Nat.ne_zero_of_lt hfuel)
  induction queue generalizing b fuel with
  | nil =>
    obtain ⟨b', hrun, hb', hptr, hfreed⟩ := run_receive_nil h fuel
    exact ⟨none, b', hrun, trivial, hb', by rw [hfreed]; exact (List.append_nil _).symm,
      by rw [hptr]; rfl⟩
  | cons x queue ih =>
    obtain ⟨p, hp, hrun⟩ := run_receive_cons h fuel
    have htail := h.tail
    have hsize : sizes (x :: queue) = x.1.size + sizes queue := rfl
    by_cases hgood : x.1.Good
    · rw [if_pos hgood] at hrun
      have hdeliver : deliver (x :: queue) = (some x, [], queue) := if_pos hgood
      rw [hdeliver, hsize]
      refine ⟨some p, _, hrun, hp, htail, (List.append_nil _).symm, ?_⟩
      rw [← Nat.add_assoc]
      rfl
    · rw [if_neg hgood] at hrun
      have hdeliver : deliver (x :: queue) =
          ((deliver queue).1, x.2 :: (deliver queue).2.1, (deliver queue).2.2) := if_neg hgood
      rw [List.length_cons] at hfuel
      obtain ⟨fuel, rfl⟩ := Nat.exists_eq_add_one_of_ne_zero (n := fuel) (by omega)
      obtain ⟨q, b', hrest, hq, hb', hfreed, hptr⟩ :=
        ih (b := (b.afterFrame x.1).free x.2) ⟨htail.laid, htail.ids, htail.short, htail.granted⟩
          fuel (by omega)
      rw [hdeliver, hsize]
      refine ⟨q, b', hrun.trans hrest, hq, hb', ?_, ?_⟩
      · rw [hfreed]
        exact List.append_assoc ..
      · rw [hptr, ← Nat.add_assoc]
        rfl

def goodFrames (queue : List (RxFrame × ℕ)) : List (RxFrame × ℕ) :=
  queue.filter fun x => x.1.Good

def badIds (queue : List (RxFrame × ℕ)) : List ℕ :=
  (queue.filter fun x => ¬ x.1.Good).map Prod.snd

theorem deliver_spec (queue : List (RxFrame × ℕ)) :
    ∃ consumed, queue = consumed ++ (deliver queue).2.2 ∧ (deliver queue).2.1 = badIds consumed ∧
      goodFrames queue = (deliver queue).1.toList ++ goodFrames (deliver queue).2.2 ∧
      ((deliver queue).1 = none → (deliver queue).2.2 = []) := by
  induction queue with
  | nil => exact ⟨[], rfl, rfl, rfl, fun _ => rfl⟩
  | cons x queue ih =>
    by_cases hgood : x.1.Good
    · refine ⟨[x], ?_, ?_, ?_, ?_⟩ <;> simp [deliver, badIds, goodFrames, hgood]
    · obtain ⟨consumed, hqueue, hfreed, hgoods, hnone⟩ := ih
      have hdeliver : deliver (x :: queue) =
          ((deliver queue).1, x.2 :: (deliver queue).2.1, (deliver queue).2.2) := if_neg hgood
      rw [hdeliver]
      refine ⟨x :: consumed, congrArg (x :: ·) hqueue, ?_, ?_, hnone⟩
      · rw [hfreed]
        simp [badIds, hgood]
      · rw [← hgoods]
        simp [goodFrames, hgood]

/-- A call takes the first good frame, and the later calls those behind it. -/
theorem getElem?_goodFrames (queue : List (RxFrame × ℕ)) :
    (goodFrames queue)[0]? = (deliver queue).1 ∧
      ∀ i, (goodFrames queue)[i + 1]? = (goodFrames (deliver queue).2.2)[i]? := by
  obtain ⟨-, -, -, hgoods, hnone⟩ := deliver_spec queue
  rw [hgoods]
  cases hx : (deliver queue).1 with
  | none =>
    rw [hnone hx]
    exact ⟨rfl, fun i => rfl⟩
  | some y => exact ⟨rfl, fun i => rfl⟩

def receiveCalls (fuel : ℕ) : ℕ → Driver (List (Option RxPbuf))
  | 0 => pure []
  | n + 1 => do
    let p ← dm9000ReceivePacket fuel
    let ps ← receiveCalls fuel n
    pure (p :: ps)

theorem sizes_append (xs ys : List (RxFrame × ℕ)) : sizes (xs ++ ys) = sizes xs + sizes ys := by
  rw [sizes, List.map_append, List.sum_append]
  rfl

theorem badIds_append (xs ys : List (RxFrame × ℕ)) : badIds (xs ++ ys) = badIds xs ++ badIds ys := by
  rw [badIds, List.filter_append, List.map_append]
  rfl

theorem receiveCalls_deliver {b : Board} {queue : List (RxFrame × ℕ)} (h : Holds b queue)
    {fuel : ℕ} (hfuel : queue.length < fuel) (n : ℕ) :
    ∃ ps b' consumed rest, (receiveCalls fuel n).run board b = some (ps, b') ∧
      List.Forall₂ Delivers ((List.range n).map fun i => (goodFrames queue)[i]?) ps ∧
      queue = consumed ++ rest ∧ Holds b' rest ∧ b'.rxPtr = b.rxPtr + sizes consumed ∧
      b'.freed = b.freed ++ badIds consumed ∧
      ((goodFrames queue).length < n → rest = []) := by
  induction n generalizing b queue with
  | zero =>
    exact ⟨[], b, [], queue, rfl, List.Forall₂.nil, rfl, h, rfl, (List.append_nil _).symm,
      fun hn => absurd hn (Nat.not_lt_zero _)⟩
  | succ n ih =>
    obtain ⟨p, b₁, hrun, hp, hb₁, hfreed₁, hptr₁⟩ := run_receive h hfuel
    obtain ⟨consumed₁, hqueue₁, hbad₁, hgoods, hnone⟩ := deliver_spec queue
    set x := (deliver queue).1
    set queue₁ := (deliver queue).2.2
    have hlen : queue₁.length < fuel := by
      have := congrArg List.length hqueue₁
      rw [List.length_append] at this
      omega
    obtain ⟨ps, b', consumed, rest, hruns, hps, hqueue, hb', hptr, hfreed, hrest⟩ := ih hb₁ hlen
    refine ⟨p :: ps, b', consumed₁ ++ consumed, rest, ?_, ?_, ?_, hb', ?_, ?_, ?_⟩
    · rw [receiveCalls, run_bind_of hrun, run_bind_of hruns]
      rfl
    · obtain ⟨hhead, htail⟩ := getElem?_goodFrames queue
      rw [List.range_succ_eq_map, List.map_cons, List.map_map, hhead]
      refine List.Forall₂.cons hp ?_
      simpa only [Function.comp_def, Nat.succ_eq_add_one, htail] using hps
    · rw [List.append_assoc, ← hqueue]
      exact hqueue₁
    · have hsizes := congrArg sizes hqueue₁
      rw [sizes_append] at hsizes
      rw [hptr, sizes_append]
      omega
    · rw [hfreed, hfreed₁, hbad₁, badIds_append, List.append_assoc]
    · intro hn
      cases hx : x with
      | none =>
        have := hnone hx
        rw [this] at hqueue
        exact (List.append_eq_nil_iff.mp hqueue.symm).2
      | some y =>
        apply hrest
        rw [hgoods, hx, List.length_append] at hn
        simp at hn
        omega

theorem Laid.drop {ready word : ℕ → U16} {pos : ℕ} {xs ys : List (RxFrame × ℕ)}
    (h : Laid ready word pos ((xs ++ ys).map Prod.fst)) :
    Laid ready word (pos + sizes xs) (ys.map Prod.fst) := by
  induction xs generalizing pos with
  | nil => exact h
  | cons x xs ih =>
    have hsize : sizes (x :: xs) = x.1.size + sizes xs := rfl
    rw [hsize, ← Nat.add_assoc]
    exact ih h.2.2.2.2

theorem receive_delivers_good_frames {b : Board} {queue : List (RxFrame × ℕ)} (h : Holds b queue)
    {fuel : ℕ} (hfuel : queue.length < fuel) (n : ℕ) :
    ∃ ps b' consumed rest, (receiveCalls fuel n).run board b = some (ps, b') ∧
      List.Forall₂ Delivers ((List.range n).map fun i => (goodFrames queue)[i]?) ps ∧
      queue = consumed ++ rest ∧ Laid b.rxReady b.rxWord b'.rxPtr (rest.map Prod.fst) ∧
      b'.freed = b.freed ++ badIds consumed ∧
      ((goodFrames queue).length < n → rest = []) ∧
      ∀ x ∈ queue, ∀ len ∈ poolSegments x.1.length.toNat, 2 * ((len + 1) / 2) ≤ pbufPoolBufsize := by
  obtain ⟨ps, b', consumed, rest, hrun, hps, hqueue, -, hptr, hfreed, hrest⟩ :=
    receiveCalls_deliver h hfuel n
  refine ⟨ps, b', consumed, rest, hrun, hps, hqueue, ?_, hfreed, hrest,
    fun x _ len hlen => poolSegments_stores hlen⟩
  have hlaid := h.laid
  rw [hqueue] at hlaid
  rw [hptr]
  exact hlaid.drop

def runtFrame : RxFrame := ⟨0x0001, 9, List.replicate 5 0x2211, rfl⟩

def goodFrame : RxFrame := ⟨0x0001, 65, List.replicate 33 0x2211, rfl⟩

def receiveBoard : Board where
  index := 0
  regs := fun _ => 0
  tx := []
  sent := []
  rxReady := fun pos => if pos = 0 ∨ pos = 7 then 1 else 0
  rxWord := fun pos =>
    if pos = 0 ∨ pos = 7 then 0x0001 else if pos = 1 then 9 else if pos = 8 then 65 else 0x2211
  rxPtr := 0
  granted := fun _ => true
  allocs := 0
  freed := []

theorem receive_delivers_good_frames_sample :
    ∃ ps b', (receiveCalls 3 2).run board receiveBoard = some (ps, b') ∧
      List.Forall₂ Delivers [some (goodFrame, 1), none] ps := by
  have h : Holds receiveBoard [(runtFrame, 0), (goodFrame, 1)] :=
    ⟨⟨rfl, rfl, rfl, rfl, rfl, rfl, rfl, rfl, rfl⟩, rfl, by decide, fun _ => rfl⟩
  have hfuel : [(runtFrame, 0), (goodFrame, 1)].length < 3 := by decide
  obtain ⟨ps, b', _, _, hrun, hps, -⟩ := receive_delivers_good_frames h hfuel 2
  exact ⟨ps, b', hrun, hps⟩

end EnvirMonitor.Ethernet
