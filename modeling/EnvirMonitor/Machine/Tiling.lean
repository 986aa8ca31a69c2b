import EnvirMonitor.Machine.RunTable
import Mathlib.Data.List.TakeWhile

/-! An interval tiled by blocks, of which some are in use and the others are holes: where the
blocks in use lie, where the first hole is, and when no two holes touch. -/

namespace EnvirMonitor.Machine

structure Block where
  size : ℕ
  used : Bool

def total (bs : List Block) : ℕ := (bs.map Block.size).sum

def usedRuns : ℕ → List Block → List Run
  | _, [] => []
  | p, b :: bs =>
    if b.used then ⟨p, b.size⟩ :: usedRuns (p + b.size) bs else usedRuns (p + b.size) bs

def firstHole (p : ℕ) (bs : List Block) : ℕ := p + total (bs.takeWhile Block.used)

def Coalesced (bs : List Block) : Prop := bs.IsChain fun a b => a.used ∨ b.used

def lastStart : ℕ → ℕ → List Block → ℕ
  | prev, _, [] => prev
  | _, p, b :: bs => lastStart p (p + b.size) bs

@[simp] theorem total_nil : total [] = 0 := rfl

@[simp] theorem total_cons (b : Block) (bs : List Block) : total (b :: bs) = b.size + total bs :=
  List.sum_cons

@[simp] theorem total_append (as bs : List Block) : total (as ++ bs) = total as + total bs := by
  rw [total, List.map_append, List.sum_append]
  rfl

theorem lastStart_append (prev p : ℕ) (as bs : List Block) :
    lastStart prev p (as ++ bs) = lastStart (lastStart prev p as) (p + total as) bs := by
  induction as generalizing prev p with
  | nil => rfl
  | cons a as ih =>
    rw [List.cons_append, lastStart, lastStart, total_cons, ← Nat.add_assoc]
    exact ih p (p + a.size)

theorem lastStart_concat (prev p : ℕ) (bs : List Block) (b : Block) :
    lastStart prev p (bs ++ [b]) = p + total bs := by
  rw [lastStart_append]
  rfl

theorem size_le_total {b : Block} {bs : List Block} (hb : b ∈ bs) : b.size ≤ total bs :=
  List.single_le_sum (fun _ _ => Nat.zero_le _) _ (List.mem_map_of_mem hb)

def hole : ℕ → List Block
  | 0 => []
  | s + 1 => [⟨s + 1, false⟩]

@[simp] theorem total_hole (s : ℕ) : total (hole s) = s := by
  cases s with
  | zero => rfl
  | succ s => rw [hole, total_cons, total_nil, Nat.add_zero]

theorem hole_of_pos {s : ℕ} (h : 0 < s) : hole s = [⟨s, false⟩] := by
  obtain ⟨n, rfl⟩ := Nat.exists_eq_succ_of_ne_zero h.ne'
  rfl

/-! ## Blocks in use -/

@[simp] theorem usedRuns_nil (p : ℕ) : usedRuns p [] = [] := rfl

@[simp] theorem usedRuns_used (p s : ℕ) (bs : List Block) :
    usedRuns p (⟨s, true⟩ :: bs) = ⟨p, s⟩ :: usedRuns (p + s) bs := rfl

@[simp] theorem usedRuns_hole (p s : ℕ) (bs : List Block) :
    usedRuns p (⟨s, false⟩ :: bs) = usedRuns (p + s) bs := rfl

@[simp] theorem usedRuns_append (p : ℕ) (as bs : List Block) :
    usedRuns p (as ++ bs) = usedRuns p as ++ usedRuns (p + total as) bs := by
  induction as generalizing p with
  | nil => rfl
  | cons a as ih =>
    rw [List.cons_append, usedRuns, usedRuns, ih, total_cons, ← Nat.add_assoc]
    split_ifs
    · rfl
    · rfl

theorem usedRuns_holes (p s : ℕ) (bs : List Block) :
    usedRuns p (hole s ++ bs) = usedRuns (p + s) bs := by
  cases s with
  | zero => rfl
  | succ s => rfl

theorem usedRuns_inside {p : ℕ} {bs : List Block} {r : Run} (hr : r ∈ usedRuns p bs) :
    p ≤ r.start ∧ r.start + r.len ≤ p + total bs := by
  induction bs generalizing p with
  | nil => exact absurd hr List.not_mem_nil
  | cons b bs ih =>
    rw [usedRuns] at hr
    rw [total_cons]
    split_ifs at hr
    · rcases List.mem_cons.mp hr with rfl | hr
      · exact ⟨le_rfl, by simp only; omega⟩
      · have := ih hr
        omega
    · have := ih hr
      omega

theorem exists_of_mem_usedRuns {p : ℕ} {bs : List Block} {r : Run} (hr : r ∈ usedRuns p bs) :
    ∃ front back, bs = front ++ ⟨r.len, true⟩ :: back ∧ r.start = p + total front := by
  induction bs generalizing p with
  | nil => exact absurd hr List.not_mem_nil
  | cons b bs ih =>
    have htail (h : r ∈ usedRuns (p + b.size) bs) :
        ∃ front back, b :: bs = front ++ ⟨r.len, true⟩ :: back ∧ r.start = p + total front := by
      obtain ⟨front, back, rfl, hstart⟩ := ih h
      exact ⟨b :: front, back, rfl, by rw [hstart, total_cons, Nat.add_assoc]⟩
    rw [usedRuns] at hr
    split_ifs at hr with hused
    · rcases List.mem_cons.mp hr with rfl | hr
      · exact ⟨[], bs, by rw [← hused]; rfl, rfl⟩
      · exact htail hr
    · exact htail hr

theorem usedRuns_start_lt {p : ℕ} {bs : List Block} (hpos : ∀ b ∈ bs, 0 < b.size) {r : Run}
    (hr : r ∈ usedRuns p bs) : r.start < p + total bs := by
  obtain ⟨front, back, rfl, hstart⟩ := exists_of_mem_usedRuns hr
  have hlen : 0 < r.len := hpos ⟨r.len, true⟩ (by simp)
  simp only [total_append, total_cons]
  omega

theorem usedRuns_sorted (p : ℕ) (bs : List Block) :
    (usedRuns p bs).Pairwise fun r r' => r.start + r.len ≤ r'.start := by
  induction bs generalizing p with
  | nil => exact List.Pairwise.nil
  | cons b bs ih =>
    rw [usedRuns]
    split_ifs
    · exact List.pairwise_cons.mpr ⟨fun r hr => (usedRuns_inside hr).1, ih _⟩
    · exact ih _

theorem usedRuns_apart {p : ℕ} {bs : List Block} {r r' : Run} (hr : r ∈ usedRuns p bs)
    (hr' : r' ∈ usedRuns p bs) (hne : r ≠ r') : Run.Apart r r' := by
  have hsymm : Std.Symm Run.Apart := ⟨fun _ _ h => h.symm⟩
  have hpairwise : (usedRuns p bs).Pairwise Run.Apart := (usedRuns_sorted p bs).imp Or.inl
  exact hpairwise.forall hr hr' hne

theorem usedRuns_eq_nil_iff (p : ℕ) (bs : List Block) :
    usedRuns p bs = [] ↔ ∀ b ∈ bs, b.used = false := by
  induction bs generalizing p with
  | nil => simp
  | cons b bs ih =>
    rw [usedRuns, List.forall_mem_cons, ← ih (p + b.size)]
    split_ifs with hused
    · simp [hused]
    · simp [hused]

/-! ## The first hole -/

theorem firstHole_inside (p : ℕ) (bs : List Block) :
    p ≤ firstHole p bs ∧ firstHole p bs ≤ p + total bs := by
  have h := congrArg total (List.takeWhile_append_dropWhile (p := Block.used) (l := bs))
  rw [total_append] at h
  rw [firstHole]
  omega

theorem firstHole_hole (p s : ℕ) (bs : List Block) : firstHole p (⟨s, false⟩ :: bs) = p := rfl

theorem firstHole_used (p s : ℕ) (bs : List Block) :
    firstHole p (⟨s, true⟩ :: bs) = firstHole (p + s) bs := by
  rw [firstHole, firstHole, List.takeWhile_cons_of_pos rfl, total_cons, Nat.add_assoc]

theorem firstHole_append_of_used {front : List Block} (h : ∀ b ∈ front, b.used = true) (p : ℕ)
    (bs : List Block) : firstHole p (front ++ bs) = firstHole (p + total front) bs := by
  rw [firstHole, firstHole, List.takeWhile_append_of_pos h, total_append, Nat.add_assoc]

/-- A hole in front decides, and lies before what follows. -/
theorem firstHole_append_of_hole {front : List Block} (h : ¬ ∀ b ∈ front, b.used = true) (p : ℕ)
    (bs : List Block) : firstHole p (front ++ bs) = firstHole p front := by
  induction front generalizing p with
  | nil => exact absurd (List.forall_mem_nil _) h
  | cons b front ih =>
    obtain ⟨s, used⟩ := b
    cases used with
    | false => rfl
    | true =>
      rw [List.cons_append, firstHole_used, firstHole_used]
      exact ih (fun hall => h (List.forall_mem_cons.mpr ⟨rfl, hall⟩)) (p + s)

theorem firstHole_lt_of_hole {front : List Block} (hpos : ∀ b ∈ front, 0 < b.size)
    (h : ¬ ∀ b ∈ front, b.used = true) (p : ℕ) : firstHole p front < p + total front := by
  induction front generalizing p with
  | nil => exact absurd (List.forall_mem_nil _) h
  | cons b bs ih =>
    obtain ⟨s, used⟩ := b
    rw [total_cons]
    have hs := hpos _ List.mem_cons_self
    cases used with
    | false =>
      rw [firstHole_hole]
      omega
    | true =>
      have hrest : ¬ ∀ b ∈ bs, b.used = true := fun hall =>
        h (List.forall_mem_cons.mpr ⟨rfl, hall⟩)
      have := ih (fun b hb => hpos b (List.mem_cons_of_mem _ hb)) hrest (p + s)
      rw [firstHole_used, ← Nat.add_assoc]
      exact this

theorem exists_used_prefix (bs : List Block) : ∃ front rest, bs = front ++ rest ∧
    (∀ b ∈ front, b.used = true) ∧ (∀ b ∈ rest.head?, b.used = false) ∧
      firstHole 0 bs = total front := by
  refine ⟨bs.takeWhile Block.used, bs.dropWhile Block.used, List.takeWhile_append_dropWhile.symm,
    fun b hb => List.mem_takeWhile_imp hb, ?_, Nat.zero_add _⟩
  induction bs with
  | nil => simp
  | cons b bs ih =>
    cases hused : b.used with
    | true => rwa [List.dropWhile_cons_of_pos hused]
    | false => simp [List.dropWhile_cons_of_neg, hused]

/-! ## Holes that do not touch -/

theorem coalesced_used_iff {front back : List Block} {s : ℕ} :
    Coalesced (front ++ ⟨s, true⟩ :: back) ↔ Coalesced front ∧ Coalesced back := by
  simp [Coalesced, List.isChain_append, List.isChain_cons]

theorem coalesced_hole_iff {front back : List Block} {s : ℕ} :
    Coalesced (front ++ ⟨s, false⟩ :: back) ↔ Coalesced front ∧ Coalesced back ∧
      (∀ b ∈ front.getLast?, b.used = true) ∧ ∀ b ∈ back.head?, b.used = true := by
  simp only [Coalesced, List.isChain_append, List.isChain_cons, List.head?_cons, Option.mem_def,
    Option.some.injEq, Bool.false_eq_true, false_or, forall_eq', or_false]
  tauto

theorem coalesced_hole_cons {back : List Block} {s : ℕ} :
    Coalesced (⟨s, false⟩ :: back) ↔ Coalesced back ∧ ∀ b ∈ back.head?, b.used = true := by
  simp [Coalesced, List.isChain_cons, and_comm]

/-- Cells that no block in use covers lie in one hole. -/
theorem exists_hole_of_apart {p : ℕ} {bs : List Block} (h : Coalesced bs)
    (hsize : ∀ b ∈ bs, 0 < b.size) {r : Run} (hlen : 0 < r.len)
    (hr : p ≤ r.start ∧ r.start + r.len ≤ p + total bs)
    (hapart : ∀ u ∈ usedRuns p bs, Run.Apart u r) : ∃ b ∈ bs, b.used = false ∧ r.len ≤ b.size := by
  induction bs generalizing p with
  | nil =>
    rw [total_nil] at hr
    omega
  | cons b bs ih =>
    obtain ⟨hb, hbs⟩ := List.forall_mem_cons.mp hsize
    rw [total_cons] at hr
    obtain ⟨n, used⟩ := b
    simp only at hb hr
    have htail (hstart : p + n ≤ r.start) (hrest : ∀ u ∈ usedRuns (p + n) bs, Run.Apart u r) :
        ∃ b ∈ ⟨n, used⟩ :: bs, b.used = false ∧ r.len ≤ b.size := by
      obtain ⟨c, hc, hfree⟩ := ih (List.IsChain.tail h) hbs ⟨hstart, by omega⟩ hrest
      exact ⟨c, List.mem_cons_of_mem _ hc, hfree⟩
    cases used with
    | true =>
      rw [usedRuns_used, List.forall_mem_cons] at hapart
      refine htail ?_ hapart.2
      rcases hapart.1 with hfirst | hfirst
      · exact hfirst
      · simp only at hfirst
        omega
    | false =>
      rw [usedRuns_hole] at hapart
      by_cases hstart : p + n ≤ r.start
      · exact htail hstart hapart
      by_cases hend : r.start + r.len ≤ p + n
      · exact ⟨_, List.mem_cons_self, rfl, by simp only; omega⟩
      rcases bs with _ | ⟨⟨m, used⟩, bs⟩
      · rw [total_nil] at hr
        omega
      -- what follows a hole is in use
      have hused := (List.isChain_cons_cons.mp h).1
      simp only [Bool.false_eq_true, false_or] at hused
      subst hused
      have hm := hbs _ List.mem_cons_self
      rw [usedRuns_used, List.forall_mem_cons] at hapart
      rcases hapart.1 with hno | hno
      · simp only at hno hm
        omega
      · exact absurd hno hend

theorem eq_hole_of_coalesced {bs : List Block} (h : Coalesced bs) (hfree : ∀ b ∈ bs, b.used = false)
    (hpos : 0 < total bs) : bs = [⟨total bs, false⟩] := by
  rcases bs with _ | ⟨⟨s, used⟩, _ | ⟨b, bs⟩⟩
  · exact absurd hpos (Nat.lt_irrefl 0)
  · have := hfree _ List.mem_cons_self
    simp only at this
    rw [this, total_cons, total_nil, Nat.add_zero]
  · have hfirst := hfree _ List.mem_cons_self
    have hsecond := hfree b (by simp)
    have hpair := (List.isChain_cons_cons.mp h).1
    rw [hfirst, hsecond] at hpair
    simp at hpair

end EnvirMonitor.Machine
