import EnvirMonitor.Heap.Memory

/-! The structs in `ram` as the headers of a tiling of the heap, and what each operation of
`mem.c` makes of the tiling. -/

namespace EnvirMonitor.Heap
open Machine

structure Header (ram : ℕ → U8) (p next prev : ℕ) (used : Bool) : Prop where
  next : memNext ram p = next
  prev : memPrev ram p = prev
  used : memUsed ram p = if used then 1 else 0

/-- The headers of blocks from `p` on, where `prev` is the start of the block before them. -/
def Headers (ram : ℕ → U8) : ℕ → ℕ → List Block → Prop
  | _, _, [] => True
  | prev, p, b :: bs => Header ram p (p + b.size) prev b.used ∧ Headers ram p (p + b.size) bs

def Sized (bs : List Block) : Prop := ∀ b ∈ bs, 20 ≤ b.size ∧ 4 ∣ b.size

structure Tail (ram : ℕ → U8) (prev p : ℕ) (bs : List Block) : Prop where
  headers : Headers ram prev p bs
  total : p + total bs = memSizeAligned
  last : memUsed ram memSizeAligned = 1
  sized : Sized bs

def Keeps (ram ram' : ℕ → U8) (r : Run) : Prop :=
  ∀ i, r.start + sizeofStructMem ≤ i → i < r.start + r.len → ram' i = ram i

theorem Keeps.trans {ram ram' ram'' : ℕ → U8} {r : Run} (h : Keeps ram ram' r)
    (h' : Keeps ram' ram'' r) : Keeps ram ram'' r :=
  fun i hi hlt => (h' i hi hlt).trans (h i hi hlt)

/-! ## Writing to one struct -/

section Fields
variable {ram ram' : ℕ → U8} {p v next prev i : ℕ} {used : Bool}

theorem setNext_outside (h : i < p ∨ p + 8 ≤ i) : setNext ram p v i = ram i :=
  putWord_of_outside (by omega) ram _

theorem setPrev_outside (h : i < p ∨ p + 8 ≤ i) : setPrev ram p v i = ram i :=
  putWord_of_outside (by omega) ram _

theorem setUsed_outside (h : i < p ∨ p + 8 ≤ i) (b : U8) : setUsed ram p b i = ram i :=
  Function.update_of_ne (by omega) ..

theorem Header.congr (h : Header ram p next prev used)
    (hsame : ∀ i, p ≤ i → i < p + 8 → ram' i = ram i) : Header ram' p next prev used := by
  have hnext : memNext ram' p = memNext ram p :=
    congrArg BitVec.toNat (wordAt_congr fun i hi hlt => hsame i hi (by omega))
  have hprev : memPrev ram' p = memPrev ram p :=
    congrArg BitVec.toNat (wordAt_congr fun i hi hlt => hsame i (by omega) (by omega))
  have hused : memUsed ram' p = memUsed ram p := hsame (p + 4) (by omega) (by omega)
  exact ⟨hnext.trans h.next, hprev.trans h.prev, hused.trans h.used⟩

theorem Header.setNext (h : Header ram p next prev used) (hv : v < 2 ^ 16) :
    Header (setNext ram p v) p v prev used := by
  refine ⟨?_, ?_, ?_⟩
  · rw [memNext, Heap.setNext, wordAt_putWord, toNat_ofNat_of_lt hv]
  · rw [← h.prev]
    exact congrArg BitVec.toNat (wordAt_congr fun i hi hlt => putWord_of_outside (by omega) ram _)
  · rw [← h.used]
    exact putWord_of_outside (by omega) ram _

theorem Header.setPrev (h : Header ram p next prev used) (hv : v < 2 ^ 16) :
    Header (setPrev ram p v) p next v used := by
  refine ⟨?_, ?_, ?_⟩
  · rw [← h.next]
    exact congrArg BitVec.toNat (wordAt_congr fun i hi hlt => putWord_of_outside (by omega) ram _)
  · rw [memPrev, Heap.setPrev, wordAt_putWord, toNat_ofNat_of_lt hv]
  · rw [← h.used]
    exact putWord_of_outside (by omega) ram _

theorem Header.setUsed (h : Header ram p next prev used) (used' : Bool) :
    Header (setUsed ram p (if used' then 1 else 0)) p next prev used' := by
  refine ⟨?_, ?_, Function.update_self ..⟩
  · rw [← h.next]
    exact congrArg BitVec.toNat (wordAt_congr fun i hi hlt => Function.update_of_ne (by omega) ..)
  · rw [← h.prev]
    exact congrArg BitVec.toNat (wordAt_congr fun i hi hlt => Function.update_of_ne (by omega) ..)

theorem header_new (hnext : next < 2 ^ 16) (hprev : prev < 2 ^ 16) :
    Header (Heap.setPrev (Heap.setNext (Heap.setUsed ram p 0) p next) p prev) p next
      prev false := by
  have hused : Header (Heap.setUsed ram p 0) p (memNext (Heap.setUsed ram p 0) p)
      (memPrev (Heap.setUsed ram p 0) p) false := ⟨rfl, rfl, Function.update_self ..⟩
  exact (hused.setNext hnext).setPrev hprev

end Fields

/-! ## The structs of a tiling -/

section Tiling
variable {ram ram' : ℕ → U8} {p q prev e : ℕ} {front back bs : List Block}

theorem Headers.congr (h : Headers ram prev p bs) (hsized : Sized bs)
    (hsame : ∀ i, p ≤ i → i < p + total bs → ram' i = ram i) : Headers ram' prev p bs := by
  induction bs generalizing prev p with
  | nil => trivial
  | cons b bs ih =>
    obtain ⟨hb, hbs⟩ := List.forall_mem_cons.mp hsized
    rw [total_cons] at hsame
    exact ⟨h.1.congr fun i hi hlt => hsame i hi (by omega),
      ih h.2 hbs fun i hi hlt => hsame i (by omega) (by omega)⟩

theorem headers_append : Headers ram prev p (front ++ bs) ↔
    Headers ram prev p front ∧ Headers ram (lastStart prev p front) (p + total front) bs := by
  induction front generalizing prev p with
  | nil => simp only [List.nil_append, Headers, lastStart, total_nil, Nat.add_zero, true_and]
  | cons b front ih =>
    rw [List.cons_append, Headers, Headers, ih, lastStart, total_cons, Nat.add_assoc, and_assoc]

theorem sized_append : Sized (front ++ bs) ↔ Sized front ∧ Sized bs := List.forall_mem_append

theorem tail_cons {b : Block} : Tail ram prev p (b :: bs) ↔
    Header ram p (p + b.size) prev b.used ∧ (20 ≤ b.size ∧ 4 ∣ b.size) ∧
      Tail ram p (p + b.size) bs := by
  constructor
  · intro h
    obtain ⟨hb, hbs⟩ := List.forall_mem_cons.mp h.sized
    have htotal := h.total
    rw [total_cons] at htotal
    exact ⟨h.headers.1, hb, h.headers.2, by omega, h.last, hbs⟩
  · rintro ⟨hheader, hb, h⟩
    have htotal := h.total
    exact ⟨⟨hheader, h.headers⟩, by rw [total_cons]; omega, h.last,
      List.forall_mem_cons.mpr ⟨hb, h.sized⟩⟩

theorem tail_append : Tail ram prev p (front ++ bs) ↔ Headers ram prev p front ∧ Sized front ∧
    Tail ram (lastStart prev p front) (p + total front) bs := by
  constructor
  · intro h
    obtain ⟨hfront, hbs⟩ := headers_append.mp h.headers
    obtain ⟨hsized, hsized'⟩ := sized_append.mp h.sized
    have htotal := h.total
    rw [total_append] at htotal
    exact ⟨hfront, hsized, hbs, by omega, h.last, hsized'⟩
  · rintro ⟨hfront, hsized, h⟩
    have htotal := h.total
    exact ⟨headers_append.mpr ⟨hfront, h.headers⟩, by rw [total_append]; omega, h.last,
      sized_append.mpr ⟨hsized, h.sized⟩⟩

theorem Tail.congr (h : Tail ram prev p bs) (hsame : ∀ i, p ≤ i → ram' i = ram i) :
    Tail ram' prev p bs := by
  have htotal := h.total
  have hlast := hsame (memSizeAligned + 4) (by omega)
  exact ⟨h.headers.congr h.sized fun i hi _ => hsame i hi, htotal, hlast.trans h.last, h.sized⟩

theorem Tail.replace {rest rest' : List Block} (h : Tail ram prev p (front ++ rest))
    (hsame : ∀ i, i < p + Machine.total front → ram' i = ram i)
    (hrest : Tail ram' (lastStart prev p front) (p + Machine.total front) rest') :
    Tail ram' prev p (front ++ rest') := by
  obtain ⟨hfront, hsized, -⟩ := tail_append.mp h
  exact tail_append.mpr ⟨hfront.congr hsized fun i _ hlt => hsame i hlt, hsized, hrest⟩

theorem Tail.le (h : Tail ram prev p bs) : p ≤ memSizeAligned := by
  have := h.total
  omega

theorem Tail.relink (h : Tail ram prev p bs) (hq : q < memSizeAligned) :
    Tail (setPrev ram p q) q p bs := by
  have hlt : q < 2 ^ 16 := hq.trans (by decide)
  cases bs with
  | nil =>
    have hp : p = memSizeAligned := h.total
    subst hp
    refine ⟨trivial, rfl, ?_, h.sized⟩
    have hkept : setPrev ram memSizeAligned q (memSizeAligned + 4) = ram (memSizeAligned + 4) :=
      putWord_of_outside (Or.inr le_rfl) ram _
    exact hkept.trans h.last
  | cons b bs =>
    obtain ⟨hheader, hb, htail⟩ := tail_cons.mp h
    exact tail_cons.mpr ⟨hheader.setPrev hlt, hb,
      htail.congr fun i hi => setPrev_outside (Or.inr (by omega))⟩

theorem Tail.eq_nil_iff (h : Tail ram prev p bs) : p = memSizeAligned ↔ bs = [] := by
  have htotal := h.total
  cases bs with
  | nil => exact iff_of_true htotal rfl
  | cons b bs =>
    have := (tail_cons.mp h).2.1
    rw [total_cons] at htotal
    exact iff_of_false (by omega) (List.cons_ne_nil _ _)

theorem Tail.relink_if (h : Tail ram prev p bs) (hq : q < memSizeAligned) :
    Tail (if p ≠ memSizeAligned then setPrev ram p q else ram) q p bs := by
  split_ifs with hp
  · exact h.relink hq
  · obtain rfl := h.eq_nil_iff.mp (not_not.mp hp)
    exact ⟨trivial, h.total, h.last, h.sized⟩

def Local (ram ram' : ℕ → U8) (p e : ℕ) : Prop :=
  ∀ i, i < p ∨ e + sizeofStructMem ≤ i → ram' i = ram i

theorem Local.keeps (h : Local ram ram' (total front) e) {r : Run}
    (hr : r ∈ usedRuns 0 front ++ usedRuns e back) : Keeps ram ram' r := by
  intro i hi hlt
  rcases List.mem_append.mp hr with hr | hr
  · have := usedRuns_inside hr
    exact h i (Or.inl (by omega))
  · have := usedRuns_inside hr
    exact h i (Or.inr (by omega))

theorem tail_insertMem {n s : ℕ} {next x : ℕ} {used : Bool} (hheader : Header ram p next prev used)
    (hback : Tail ram x (p + n + s) back) (hn : 20 ≤ n ∧ 4 ∣ n) (hs : 20 ≤ s ∧ 4 ∣ s) :
    Tail (insertMem ram p (p + n) (p + n + s)) prev p (⟨n, used⟩ :: ⟨s, false⟩ :: back) ∧
      Local ram (insertMem ram p (p + n) (p + n + s)) p (p + n + s) ∧
      Keeps ram (insertMem ram p (p + n) (p + n + s)) ⟨p, n⟩ := by
  have hle := hback.le
  have hlt : p + n + s < 2 ^ 16 := Nat.lt_of_le_of_lt hle (by decide)
  set ram₁ := setPrev (setNext (setUsed ram (p + n) 0) (p + n) (p + n + s)) (p + n) p with h₁
  set ram₂ := setNext ram₁ p (p + n) with h₂
  have hinsert : insertMem ram p (p + n) (p + n + s) =
      if p + n + s ≠ memSizeAligned then setPrev ram₂ (p + n + s) (p + n) else ram₂ := rfl
  have hsame₁ (i : ℕ) (hi : i < p + n ∨ p + n + 8 ≤ i) : ram₁ i = ram i := by
    rw [h₁, setPrev_outside hi, setNext_outside hi, setUsed_outside hi]
  have hsame₂ (i : ℕ) (hi : i < p ∨ p + 8 ≤ i) : ram₂ i = ram₁ i := setNext_outside hi
  have hlocal (i : ℕ) (hi : i < p + n + s ∨ p + n + s + 8 ≤ i) :
      insertMem ram p (p + n) (p + n + s) i = ram₂ i := by
    rw [hinsert]
    split_ifs
    · exact setPrev_outside hi
    · rfl
  have hnew : Header ram₁ (p + n) (p + n + s) p false := header_new hlt (by omega)
  have hfirst : Header ram₂ p (p + n) prev used :=
    (hheader.congr fun i hi hlt => hsame₁ i (Or.inl (by omega))).setNext (by omega)
  have hlast : Tail ram₂ x (p + n + s) back := hback.congr fun i hi => by
    rw [hsame₂ i (Or.inr (by omega)), hsame₁ i (Or.inr (by omega))]
  refine ⟨tail_cons.mpr ⟨?_, hn, tail_cons.mpr ⟨?_, hs, ?_⟩⟩, fun i hi => ?_,
    fun i hi hlt => ?_⟩
  · exact hfirst.congr fun i hi hlt => hlocal i (Or.inl (by omega))
  · exact (hnew.congr fun i hi hlt => hsame₂ i (Or.inr (by omega))).congr
      fun i hi hlt => hlocal i (Or.inl (by omega))
  · rw [hinsert]
    exact hlast.relink_if (by omega)
  · simp only [sizeofStructMem] at hi
    rw [hlocal i (by omega), hsame₂ i (by omega), hsame₁ i (by omega)]
  · simp only [sizeofStructMem] at hi hlt
    rw [hlocal i (by omega), hsame₂ i (by omega), hsame₁ i (by omega)]

end Tiling

end EnvirMonitor.Heap
