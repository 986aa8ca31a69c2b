import EnvirMonitor.Lwip.Chain

/-! Sending a chain from the front: each buffer that is taken gives its place to the next one, which
is referenced before the first is freed. -/

namespace EnvirMonitor.Lwip
open Machine

/-! ## One buffer -/

/-- `if(next) pbuf_ref(next); pbuf_free(ptr);` -/
def passOn (h : Heap) (ptr : ℕ) : Heap × List ℕ :=
  pbufFree ((h.pbufs ptr).next.elim h (pbufRef h)) ptr

/-- The buffer goes if nobody else refers to it, and the next one then keeps its count. -/
structure PassedOn (h : Heap) (ptr : ℕ) (r : Heap × List ℕ) : Prop where
  frees : Frees h r.1 r.2
  freed : r.2 = if (h.pbufs ptr).ref = 1 then [ptr] else []
  next : ∀ q ∈ (h.pbufs ptr).next,
    (r.1.pbufs q).ref = (h.pbufs q).ref + if (h.pbufs ptr).ref = 1 then 0 else 1
  others : ∀ i, i ≠ ptr → i ∉ (h.pbufs ptr).next → r.1.pbufs i = h.pbufs i

theorem decU16_incr {n : ℕ} (hpos : 1 ≤ n) (hlt : n < 2 ^ 16) : decU16 ((n + 1) % 2 ^ 16) = n := by
  rcases Nat.lt_or_ge (n + 1) (2 ^ 16) with h | h
  · rw [Nat.mod_eq_of_lt h, decU16]
  -- the count has gone through 0
  · obtain rfl : n = 2 ^ 16 - 1 := by omega
    rfl

theorem pbufFreeLoop_stops {h : Heap} {p : ℕ} (fuel : ℕ) (href : decU16 (h.pbufs p).ref ≠ 0) :
    pbufFreeLoop (fuel + 1) h (some p) = (h.setRef p (decU16 (h.pbufs p).ref), []) := by
  rw [pbufFreeLoop]
  exact if_neg href

theorem pbufFreeLoop_deallocates {h : Heap} {p : ℕ} (fuel : ℕ) (href : (h.pbufs p).ref = 1) :
    pbufFreeLoop (fuel + 1) h (some p) =
      ((pbufFreeLoop fuel ((h.setRef p 0).dealloc p) (h.pbufs p).next).1,
        p :: (pbufFreeLoop fuel ((h.setRef p 0).dealloc p) (h.pbufs p).next).2) := by
  rw [pbufFreeLoop, href]
  simp only [Heap.setRef_next]
  rfl

theorem frees_pbufRef {h h' : Heap} {q : ℕ} {freed : List ℕ} (hf : Frees (pbufRef h q) h' freed) :
    Frees h h' freed where
  next := fun i => (hf.next i).trans (h.setRef_next ..)
  payload := fun i => (hf.payload i).trans (h.setRef_payload ..)
  fresh := hf.fresh
  live := hf.live

theorem frees_passOn (h : Heap) (ptr : ℕ) : Frees h (passOn h ptr).1 (passOn h ptr).2 := by
  rw [passOn]
  cases (h.pbufs ptr).next with
  | none => exact frees_pbufFree h ptr
  | some q => exact frees_pbufRef (frees_pbufFree (pbufRef h q) ptr)

theorem passOn_last {h : Heap} {ptr : ℕ} (hnext : (h.pbufs ptr).next = none) :
    passOn h ptr = pbufFree h ptr := by
  rw [passOn, hnext]
  rfl

theorem passed_on_last {h : Heap} {ptr : ℕ} (hnext : (h.pbufs ptr).next = none) :
    PassedOn h ptr (passOn h ptr) := by
  have hfrees := frees_passOn h ptr
  rw [passOn_last hnext, pbufFree] at hfrees ⊢
  by_cases hone : (h.pbufs ptr).ref = 1
  · have hloop : pbufFreeLoop (h.fresh + 1) h (some ptr) = ((h.setRef ptr 0).dealloc ptr, [ptr]) := by
      rw [pbufFreeLoop_deallocates _ hone, hnext]
      cases h.fresh <;> rfl
    rw [hloop] at hfrees ⊢
    exact ⟨hfrees, (if_pos hone).symm, by simp [hnext], fun i hi _ => h.setRef_ne 0 hi⟩
  · rw [pbufFreeLoop_stops _ (mt decU16_eq_zero.mp hone)] at hfrees ⊢
    exact ⟨hfrees, (if_neg hone).symm, by simp [hnext], fun i hi _ => h.setRef_ne _ hi⟩

theorem passed_on_next {h : Heap} {ptr q : ℕ} (hnext : (h.pbufs ptr).next = some q) (hne : q ≠ ptr)
    (hfresh : ptr < h.fresh) (hq : 1 ≤ (h.pbufs q).ref) (hlt : (h.pbufs q).ref < 2 ^ 16)
    (hroom : (h.pbufs ptr).ref ≠ 1 → (h.pbufs q).ref + 1 < 2 ^ 16) : PassedOn h ptr (passOn h ptr) := by
  have hpass : passOn h ptr = pbufFree (pbufRef h q) ptr := by rw [passOn, hnext]; rfl
  have hptr : (pbufRef h q).pbufs ptr = h.pbufs ptr := h.setRef_ne _ hne.symm
  have hcount : ((pbufRef h q).pbufs q).ref = ((h.pbufs q).ref + 1) % 2 ^ 16 := h.setRef_self ..
  have hothers {i : ℕ} (hi : i ≠ q) : (pbufRef h q).pbufs i = h.pbufs i := h.setRef_ne _ hi
  have hnotq {i : ℕ} (hi : i ∉ (h.pbufs ptr).next) : i ≠ q := by
    rintro rfl
    exact hi hnext
  have hfrees := frees_passOn h ptr
  rw [hpass, pbufFree] at hfrees ⊢
  by_cases hone : (h.pbufs ptr).ref = 1
  · obtain ⟨fuel, hfuel⟩ := Nat.exists_eq_add_one_of_ne_zero (Nat.ne_zero_of_lt hfresh)
    -- `q` has its second reference for a moment, and the cascade ends there
    have hstop : decU16 ((((pbufRef h q).setRef ptr 0).dealloc ptr).pbufs q).ref =
        (h.pbufs q).ref := by
      change decU16 (((pbufRef h q).setRef ptr 0).pbufs q).ref = _
      rw [Heap.setRef_ne _ _ hne, hcount, decU16_incr hq hlt]
    have hloop : pbufFreeLoop ((pbufRef h q).fresh + 1) (pbufRef h q) (some ptr) =
        ((((pbufRef h q).setRef ptr 0).dealloc ptr).setRef q (h.pbufs q).ref, [ptr]) := by
      have hfuel' : (pbufRef h q).fresh = fuel + 1 := hfuel
      rw [pbufFreeLoop_deallocates _ (by rw [hptr]; exact hone), hptr, hnext, hfuel',
        pbufFreeLoop_stops _ (by rw [hstop]; omega), hstop]
    rw [hloop] at hfrees ⊢
    refine ⟨hfrees, by rw [if_pos hone], fun i hi => ?_, fun i hi hi' => ?_⟩
    · obtain rfl : q = i := Option.some.inj (hnext.symm.trans hi)
      rw [if_pos hone]
      exact Heap.setRef_self ..
    · rw [Heap.setRef_ne _ _ (hnotq hi')]
      exact (Heap.setRef_ne _ _ hi).trans (hothers (hnotq hi'))
  · have hloop : pbufFreeLoop ((pbufRef h q).fresh + 1) (pbufRef h q) (some ptr) =
        ((pbufRef h q).setRef ptr (decU16 (h.pbufs ptr).ref), []) := by
      rw [pbufFreeLoop_stops _ (by rw [hptr]; exact mt decU16_eq_zero.mp hone), hptr]
    rw [hloop] at hfrees ⊢
    refine ⟨hfrees, by rw [if_neg hone], fun i hi => ?_, fun i hi hi' => ?_⟩
    · obtain rfl : q = i := Option.some.inj (hnext.symm.trans hi)
      rw [if_neg hone, Heap.setRef_ne _ _ hne, hcount, Nat.mod_eq_of_lt (hroom hone)]
    · exact (Heap.setRef_ne _ _ hi).trans (hothers (hnotq hi'))

/-! ## The loop -/

/-- `written` are the buffers that were taken and `freed` those that were deallocated, in order. -/
structure Sent where
  heap : Heap
  p : Option ℕ
  written : List ℕ
  freed : List ℕ
  finished : Bool

/-- The answers are the free space and whether the write succeeds, turn by turn; where they run out,
the loop is still going. -/
def sendLoop : Heap → Option ℕ → List (ℕ × Bool) → Sent
  | h, p, [] => ⟨h, p, [], [], p.isNone⟩
  | h, none, _ :: _ => ⟨h, none, [], [], true⟩
  | h, some ptr, (space, ok) :: answers =>
    if (h.pbufs ptr).len ≤ space ∧ ok = true then
      let r := passOn h ptr
      let s := sendLoop r.1 (h.pbufs ptr).next answers
      ⟨s.heap, s.p, ptr :: s.written, r.2 ++ s.freed, s.finished⟩
    else ⟨h, some ptr, [], [], true⟩

/-- The counts of a chain, at whose head one more reference may be held by a buffer before it. -/
structure Carries (count : ℕ → ℕ) (held : Bool) (h : Heap) (qs : List ℕ) : Prop where
  head : ∀ q ∈ qs.head?, (h.pbufs q).ref = count q + held.toNat
  tail : ∀ q ∈ qs.tail, (h.pbufs q).ref = count q

/-- All counts are valid, and behind a shared buffer there is room for one more reference. -/
structure Countable (count : ℕ → ℕ) (held : Bool) (qs : List ℕ) : Prop where
  pos : ∀ q ∈ qs, 1 ≤ count q
  lt : ∀ q ∈ qs, count q < 2 ^ 16
  room : qs.Pairwise fun x y => 1 < count x → count y + 1 < 2 ^ 16
  behind : held = true → ∀ q ∈ qs, count q + 1 < 2 ^ 16

/-- Whether a buffer that is passed on stays, for a reference from elsewhere or one from a buffer
that stays. -/
def holds (count : ℕ → ℕ) (held : Bool) (q : ℕ) : Bool := held || decide (1 < count q)

section
variable {count : ℕ → ℕ} {held : Bool} {h h' : Heap} {q : ℕ} {qs : List ℕ}

theorem Countable.tail (hc : Countable count held (q :: qs)) :
    Countable count (holds count held q) qs where
  pos := fun x hx => hc.pos x (List.mem_cons_of_mem _ hx)
  lt := fun x hx => hc.lt x (List.mem_cons_of_mem _ hx)
  room := (List.pairwise_cons.mp hc.room).2
  behind := fun hheld x hx => by
    rcases Bool.or_eq_true_iff.mp hheld with hheld | hq
    · exact hc.behind hheld x (List.mem_cons_of_mem _ hx)
    · exact (List.pairwise_cons.mp hc.room).1 x hx (of_decide_eq_true hq)

theorem Carries.ref_eq_one_iff (hc : Carries count held h (q :: qs)) (hpos : 1 ≤ count q) :
    (h.pbufs q).ref = 1 ↔ holds count held q = false := by
  rw [hc.head q rfl, holds, Bool.or_eq_false_iff, decide_eq_false_iff_not]
  cases held with
  | true => simp; omega
  | false => simp; omega

theorem passed_on {p : Option ℕ} (hl : Linked h p (q :: qs)) (hc : Carries count held h (q :: qs))
    (hcount : Countable count held (q :: qs)) : PassedOn h q (passOn h q) := by
  cases qs with
  | nil => exact passed_on_last hl.2.2
  | cons x qs =>
    have href : (h.pbufs x).ref = count x := hc.tail x List.mem_cons_self
    have hxmem : x ∈ q :: x :: qs := by simp
    refine passed_on_next hl.2.2.1 (fun hxq => hl.not_mem_rest (hxq ▸ List.mem_cons_self)) hl.2.1.1
      (href ▸ hcount.pos x hxmem) (href ▸ hcount.lt x hxmem) fun hq => ?_
    rw [href]
    refine hcount.tail.behind ?_ x List.mem_cons_self
    have hpos := hcount.pos q List.mem_cons_self
    exact Bool.eq_true_of_not_eq_false fun hno => hq ((hc.ref_eq_one_iff hpos).mpr hno)

theorem not_mem_freed {p : Option ℕ} (hl : Linked h p (q :: qs)) {r : Heap × List ℕ}
    (hr : PassedOn h q r) : ∀ x ∈ qs, x ∉ r.2 := by
  intro x hx hfreed
  rw [hr.freed] at hfreed
  split_ifs at hfreed
  · exact hl.not_mem_rest (List.mem_singleton.mp hfreed ▸ hx)
  · exact absurd hfreed List.not_mem_nil

theorem linked_passed_on {p : Option ℕ} (hl : Linked h p (q :: qs)) {r : Heap × List ℕ}
    (hr : PassedOn h q r) : Linked r.1 (h.pbufs q).next qs := by
  refine hl.2.2.congr (fun x _ => hr.frees.next x) fun x hx => ?_
  obtain ⟨hfresh, hlive⟩ := hl.2.2.allocated x hx
  refine ⟨hr.frees.fresh ▸ hfresh, ?_⟩
  rw [hr.frees.live, hlive, decide_eq_true (not_mem_freed hl hr x hx)]
  rfl

theorem carries_passed_on {p : Option ℕ} (hl : Linked h p (q :: qs))
    (hc : Carries count held h (q :: qs)) (hpos : 1 ≤ count q) {r : Heap × List ℕ}
    (hr : PassedOn h q r) : Carries count (holds count held q) r.1 qs := by
  have hone := hc.ref_eq_one_iff hpos
  have hnext := hl.2.2.head?
  constructor
  · intro x hx
    rw [hr.next x (hnext ▸ hx), hc.tail x (List.mem_of_mem_head? hx)]
    cases hheld : holds count held q with
    | false => rw [if_pos (hone.mpr hheld)]; rfl
    | true => rw [if_neg (fun h => by simp [hone.mp h] at hheld)]; rfl
  · intro x hx
    have hxqs := List.mem_of_mem_tail hx
    have hxq : x ≠ q := fun h => hl.not_mem_rest (h ▸ hxqs)
    have hxnext : x ∉ (h.pbufs q).next := by
      rw [hnext]
      cases qs with
      | nil => cases hx
      | cons y qs =>
        intro hy
        obtain rfl := Option.some.inj hy
        exact hl.2.2.not_mem_rest hx
    rw [hr.others x hxq hxnext]
    exact hc.tail x hxqs

end

theorem Frees.trans {h h₁ h₂ : Heap} {freed freed' : List ℕ} (hf : Frees h h₁ freed)
    (hf' : Frees h₁ h₂ freed') : Frees h h₂ (freed ++ freed') where
  next := fun i => (hf'.next i).trans (hf.next i)
  payload := fun i => (hf'.payload i).trans (hf.payload i)
  fresh := hf'.fresh.trans hf.fresh
  live := fun i => by
    rw [hf'.live, hf.live, Bool.and_assoc]
    congr 1
    simp [Bool.decide_and, List.mem_append]

theorem Frees.refl (h : Heap) : Frees h h [] :=
  ⟨fun _ => rfl, fun _ => rfl, rfl, fun _ => by simp⟩

/-- The buffers of a prefix that no reference from elsewhere reaches: those before the first one
that is shared. -/
def unreached (count : ℕ → ℕ) (sent : List ℕ) : List ℕ := sent.takeWhile fun q => count q = 1

theorem freed_cons {count : ℕ → ℕ} {held : Bool} {q ref : ℕ} (hpos : 1 ≤ count q)
    (hone : ref = 1 ↔ holds count held q = false) (sent : List ℕ) :
    (if ref = 1 then [q] else []) ++ (if holds count held q then [] else unreached count sent) =
      if held then [] else unreached count (q :: sent) := by
  cases hheld : holds count held q with
  | false =>
    obtain ⟨rfl, hq⟩ := Bool.or_eq_false_iff.mp hheld
    have hq : count q = 1 := by
      have := of_decide_eq_false hq
      omega
    rw [if_pos (hone.mpr hheld)]
    simp [unreached, hq]
  | true =>
    have hne : ref ≠ 1 := fun h => absurd ((hone.mp h).symm.trans hheld) Bool.false_ne_true
    rw [if_neg hne]
    cases held with
    | true => rfl
    | false =>
      have hq : count q ≠ 1 := by
        have := of_decide_eq_true hheld
        omega
      simp [unreached, hq]

structure SentPrefix (count : ℕ → ℕ) (held : Bool) (h : Heap) (qs sent rest : List ℕ) (s : Sent) :
    Prop where
  split : qs = sent ++ rest
  finished : s.finished = true
  written : s.written = sent
  linked : Linked s.heap s.p rest
  freed : s.freed = if held then [] else unreached count sent
  counts : Carries count (sent.foldl (holds count) held) s.heap rest
  frees : Frees h s.heap s.freed
  frame : ∀ i ∉ qs, s.heap.pbufs i = h.pbufs i

theorem sentPrefix_stop {count : ℕ → ℕ} {held : Bool} {h : Heap} {p : Option ℕ} {qs : List ℕ}
    (hl : Linked h p qs) (hc : Carries count held h qs) :
    SentPrefix count held h qs [] qs ⟨h, p, [], [], true⟩ :=
  ⟨rfl, rfl, rfl, hl, by cases held <;> rfl, hc, Frees.refl h, fun _ _ => rfl⟩

theorem sendLoop_sent {count : ℕ → ℕ} {held : Bool} {h : Heap} {p : Option ℕ} {qs : List ℕ}
    {answers : List (ℕ × Bool)} (hl : Linked h p qs) (hc : Carries count held h qs)
    (hcount : Countable count held qs) (hlen : qs.length ≤ answers.length) :
    ∃ sent rest, SentPrefix count held h qs sent rest (sendLoop h p answers) := by
  induction qs generalizing h p held answers with
  | nil =>
    obtain rfl := hl
    have hstop : sendLoop h none answers = ⟨h, none, [], [], true⟩ := by cases answers <;> rfl
    exact ⟨[], [], hstop ▸ sentPrefix_stop rfl hc⟩
  | cons q qs ih =>
    obtain ⟨⟨space, ok⟩, answers, rfl⟩ := List.exists_cons_of_length_pos (Nat.zero_lt_of_lt hlen)
    obtain rfl := hl.1
    rw [sendLoop]
    split_ifs with htaken
    · have hr := passed_on hl hc hcount
      have hpos := hcount.pos q List.mem_cons_self
      obtain ⟨sent, rest, hs⟩ := ih (linked_passed_on hl hr) (carries_passed_on hl hc hpos hr)
        hcount.tail (Nat.le_of_succ_le_succ hlen)
      refine ⟨q :: sent, rest, congrArg (q :: ·) hs.split, hs.finished, congrArg (q :: ·) hs.written,
        hs.linked, ?_, hs.counts, hr.frees.trans hs.frees, fun i hi => ?_⟩
      · dsimp only
        rw [hr.freed, hs.freed]
        exact freed_cons hpos (hc.ref_eq_one_iff hpos) sent
      · have hiqs : i ∉ qs := fun h => hi (List.mem_cons_of_mem q h)
        have hinext : i ∉ (h.pbufs q).next := by
          rw [hl.2.2.head?]
          exact fun h => hiqs (List.mem_of_mem_head? h)
        exact (hs.frame i hiqs).trans (hr.others i (fun h => hi (h ▸ List.mem_cons_self)) hinext)
    · exact ⟨[], q :: qs, sentPrefix_stop hl hc⟩

/-! ## References from elsewhere -/

/-- A reference from elsewhere to `q` or to a buffer before it keeps `q`. -/
def Reached (count : ℕ → ℕ) : List ℕ → ℕ → Prop
  | [], _ => False
  | x :: qs, q => 1 < count x ∧ q ∈ x :: qs ∨ Reached count qs q

section
variable {count : ℕ → ℕ} {q : ℕ}

theorem Reached.mem {qs : List ℕ} (h : Reached count qs q) : q ∈ qs := by
  induction qs with
  | nil => exact h.elim
  | cons x qs ih => exact h.elim And.right fun h => List.mem_cons_of_mem _ (ih h)

theorem mem_unreached {sent rest : List ℕ} (hnodup : (sent ++ rest).Nodup)
    (hpos : ∀ q ∈ sent, 1 ≤ count q) :
    q ∈ unreached count sent ↔ q ∈ sent ∧ ¬ Reached count (sent ++ rest) q := by
  induction sent with
  | nil => simp [unreached]
  | cons x sent ih =>
    obtain ⟨hx, hnodup⟩ := List.nodup_cons.mp hnodup
    obtain ⟨hxpos, hpos⟩ := List.forall_mem_cons.mp hpos
    rw [List.cons_append, Reached, unreached, List.takeWhile_cons]
    by_cases hone : count x = 1
    · rw [if_pos (decide_eq_true hone), List.mem_cons, List.mem_cons, ← unreached,
        ih hnodup hpos, hone]
      constructor
      · rintro (rfl | ⟨hq, hno⟩)
        · exact ⟨Or.inl rfl, fun h => h.elim (fun h => absurd h.1 (lt_irrefl _)) fun h => hx h.mem⟩
        · exact ⟨Or.inr hq, fun h => h.elim (fun h => absurd h.1 (lt_irrefl _)) hno⟩
      · rintro ⟨rfl | hq, hno⟩
        · exact Or.inl rfl
        · exact Or.inr ⟨hq, fun h => hno (Or.inr h)⟩
    · rw [if_neg (by simpa using hone)]
      refine iff_of_false List.not_mem_nil fun ⟨hq, hno⟩ => hno (Or.inl ⟨by omega, ?_⟩)
      exact List.mem_append_left rest hq

theorem reached_last {sent rest : List ℕ} (hnodup : (sent ++ rest).Nodup)
    (hq : q ∈ sent.getLast?) : Reached count (sent ++ rest) q ↔ ∃ x ∈ sent, 1 < count x := by
  induction sent with
  | nil => cases hq
  | cons x sent ih =>
    have hmem : q ∈ x :: (sent ++ rest) :=
      List.mem_append_left rest (List.mem_of_mem_getLast? hq)
    obtain ⟨hx, hnodup⟩ := List.nodup_cons.mp hnodup
    rw [List.cons_append, Reached, and_iff_left hmem, List.exists_mem_cons_iff]
    refine or_congr_right ?_
    cases sent with
    | nil =>
      obtain rfl := Option.some.inj hq
      exact iff_of_false (fun h => hx h.mem) (by simp)
    | cons y sent => exact ih hnodup (by rwa [List.getLast?_cons_cons] at hq)

theorem foldl_holds (held : Bool) (sent : List ℕ) :
    sent.foldl (holds count) held = true ↔ held = true ∨ ∃ x ∈ sent, 1 < count x := by
  induction sent generalizing held with
  | nil => simp
  | cons x sent ih =>
    rw [List.foldl_cons, ih, holds, Bool.or_eq_true_iff, decide_eq_true_iff,
      List.exists_mem_cons_iff, or_assoc]

end

/-- The unsent suffix is what is left, and no buffer is lost or freed that somebody refers to. -/
structure SuffixKept (h : Heap) (qs sent rest : List ℕ) (h' : Heap) (p : Option ℕ)
    (freed : List ℕ) : Prop where
  split : qs = sent ++ rest
  suffix : Linked h' p rest
  unreached : ∀ q, q ∈ freed ↔ q ∈ sent ∧ ¬ Reached (fun i => (h.pbufs i).ref) qs q
  once : freed.Nodup
  live : ∀ i, h'.live i = (h.live i && decide (i ∉ freed))
  head : ∀ x ∈ rest.head?, (h'.pbufs x).ref =
    (h.pbufs x).ref + if ∃ y ∈ sent.getLast?, h'.live y = true then 1 else 0
  tail : ∀ x ∈ rest.tail, (h'.pbufs x).ref = (h.pbufs x).ref
  contents : ∀ i, (h'.pbufs i).next = (h.pbufs i).next ∧ (h'.pbufs i).payload = (h.pbufs i).payload
  others : ∀ i ∉ qs, h'.pbufs i = h.pbufs i

/-- The chain of a sender: the counts are those of a `u16_t`, and behind a shared buffer there is
room for one more reference. -/
structure Sendable (h : Heap) (p : Option ℕ) (qs : List ℕ) : Prop where
  linked : Linked h p qs
  pos : ∀ q ∈ qs, 1 ≤ (h.pbufs q).ref
  lt : ∀ q ∈ qs, (h.pbufs q).ref < 2 ^ 16
  room : qs.Pairwise fun x y => 1 < (h.pbufs x).ref → (h.pbufs y).ref + 1 < 2 ^ 16

theorem sendLoop_keeps {h : Heap} {p : Option ℕ} {qs : List ℕ} {answers : List (ℕ × Bool)}
    (hs : Sendable h p qs) (hlen : qs.length ≤ answers.length) :
    (sendLoop h p answers).finished = true ∧ ∃ rest, SuffixKept h qs (sendLoop h p answers).written
      rest (sendLoop h p answers).heap (sendLoop h p answers).p (sendLoop h p answers).freed := by
  have hcarries : Carries (fun i => (h.pbufs i).ref) false h qs := ⟨fun _ _ => rfl, fun _ _ => rfl⟩
  have hcount : Countable (fun i => (h.pbufs i).ref) false qs :=
    ⟨hs.pos, hs.lt, hs.room, fun h => absurd h Bool.false_ne_true⟩
  obtain ⟨sent, rest, hsent⟩ := sendLoop_sent hs.linked hcarries hcount hlen
  generalize sendLoop h p answers = s at hsent
  obtain ⟨rfl, hfinished, hwritten, hlinked, hfreed, hcounts, hfrees, hframe⟩ := hsent
  have hnodup := hs.linked.nodup
  have hpos : ∀ q ∈ sent, 1 ≤ (h.pbufs q).ref := fun q hq => hs.pos q (List.mem_append_left rest hq)
  have hmem (q : ℕ) : q ∈ s.freed ↔ q ∈ sent ∧ ¬ Reached (fun i => (h.pbufs i).ref) (sent ++ rest) q := by
    rw [hfreed, if_neg Bool.false_ne_true]
    exact mem_unreached hnodup hpos
  refine ⟨hfinished, rest, ?_⟩
  rw [hwritten]
  refine ⟨rfl, hlinked, hmem, ?_, hfrees.live, fun x hx => ?_, hcounts.tail,
    fun i => ⟨hfrees.next i, hfrees.payload i⟩, hframe⟩
  · rw [hfreed, if_neg Bool.false_ne_true]
    exact (List.takeWhile_sublist _).nodup (List.nodup_append.mp hnodup).1
  · have hheld : sent.foldl (holds fun i => (h.pbufs i).ref) false = true ↔
        ∃ y ∈ sent.getLast?, s.heap.live y = true := by
      rw [foldl_holds, or_iff_right Bool.false_ne_true]
      cases hlast : sent.getLast? with
      | none =>
        rw [List.getLast?_eq_none_iff.mp hlast]
        simp
      | some y =>
        have hy : y ∈ sent := List.mem_of_getLast? hlast
        have hlive : h.live y = true := (hs.linked.allocated y (List.mem_append_left rest hy)).2
        rw [← reached_last hnodup hlast]
        simp [hfrees.live, hlive, hmem, hy]
    rw [hcounts.head x hx]
    congr 1
    by_cases hpred : ∃ y ∈ sent.getLast?, s.heap.live y = true
    · rw [if_pos hpred, hheld.mpr hpred]
      rfl
    · rw [if_neg hpred, Bool.eq_false_of_not_eq_true (mt hheld.mp hpred)]
      rfl

end EnvirMonitor.Lwip
