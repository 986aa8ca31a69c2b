import Mathlib.Data.List.Pairwise
import Mathlib.Tactic

/-! Tables that record a set of disjoint runs of cells by storing a run's length in each of
its cells and 0 elsewhere. Allocation inserts a run of free cells, release clears one. -/

namespace EnvirMonitor.Machine

structure Run where
  start : ℕ
  len : ℕ

namespace Run

def Mem (r : Run) (i : ℕ) : Prop := r.start ≤ i ∧ i < r.start + r.len

instance (r : Run) (i : ℕ) : Decidable (r.Mem i) := inferInstanceAs (Decidable (_ ∧ _))

def Apart (r r' : Run) : Prop := r.start + r.len ≤ r'.start ∨ r'.start + r'.len ≤ r.start

theorem Apart.symm {r r' : Run} (h : Apart r r') : Apart r' r := Or.symm h

theorem Apart.not_mem {r r' : Run} (h : Apart r r') {i : ℕ} (hi : r.Mem i) : ¬ r'.Mem i := by
  rintro ⟨h1, h2⟩
  obtain ⟨h3, h4⟩ := hi
  rcases h with h | h <;> omega

theorem not_apart_self {r : Run} (h : 0 < r.len) : ¬ Apart r r := by
  rintro (h' | h') <;> omega

theorem apart_of_not_mem {r r' : Run} (h : 0 < r.len) (h' : 0 < r'.len)
    (hno : ∀ i, r.Mem i → ¬ r'.Mem i) : Apart r r' := by
  by_contra hap
  simp only [Apart, not_or, not_le] at hap
  refine hno (max r.start r'.start) ⟨le_max_left _ _, ?_⟩ ⟨le_max_right _ _, ?_⟩ <;>
    rw [max_lt_iff] <;> omega

end Run

section Fill
variable {α : Type*}

def fill (f : ℕ → α) (start : ℕ) (v : α) : ℕ → ℕ → α
  | 0 => f
  | n + 1 => Function.update (fill f start v n) (start + n) v

theorem fill_apply (f : ℕ → α) (start : ℕ) (v : α) (n i : ℕ) :
    fill f start v n i = if Run.Mem ⟨start, n⟩ i then v else f i := by
  induction n with
  | zero =>
    rw [if_neg fun h => by have := h.1; have := h.2; simp only at *; omega]
    rfl
  | succ n ih =>
    by_cases hi : i = start + n
    · subst hi
      rw [fill, Function.update_self, if_pos ⟨Nat.le_add_right _ _, by simp⟩]
    · rw [fill, Function.update_of_ne hi, ih]
      refine if_congr ⟨fun h => ⟨h.1, Nat.lt_succ_of_lt h.2⟩, fun h => ⟨h.1, ?_⟩⟩ rfl rfl
      have := h.2
      simp only at this ⊢
      omega

theorem fill_comp {β : Type*} (g : α → β) (f : ℕ → α) (start : ℕ) (v : α) (n : ℕ) :
    (fun i => g (fill f start v n i)) = fill (fun i => g (f i)) start (g v) n := by
  funext i
  rw [fill_apply, fill_apply, apply_ite g]

end Fill

/-- `f` is exactly the table, on the cells below `size`, of the runs that `items` own. -/
structure TableOf {ι : Type*} (run : ι → Run) (size : ℕ) (items : List ι) (f : ℕ → ℕ) : Prop where
  apart : items.Pairwise fun x y => Run.Apart (run x) (run y)
  pos : ∀ x ∈ items, 0 < (run x).len
  inside : ∀ x ∈ items, (run x).start + (run x).len ≤ size
  held : ∀ x ∈ items, ∀ i, (run x).Mem i → f i = (run x).len
  free : ∀ i < size, (∀ x ∈ items, ¬ (run x).Mem i) → f i = 0

namespace TableOf
variable {ι : Type*} {run : ι → Run} {size : ℕ} {items : List ι} {f : ℕ → ℕ}

theorem empty (h : ∀ i < size, f i = 0) : TableOf run size [] f :=
  ⟨List.Pairwise.nil, by simp, by simp, by simp, fun i hi _ => h i hi⟩

theorem apart_of_free (h : TableOf run size items f) {r : Run} (hr : 0 < r.len)
    (hfree : ∀ i, r.Mem i → f i = 0) {x : ι} (hx : x ∈ items) : Run.Apart r (run x) := by
  refine Run.apart_of_not_mem hr (h.pos x hx) fun i hi hix => ?_
  have := h.held x hx i hix
  have := h.pos x hx
  have := hfree i hi
  omega

theorem insert (h : TableOf run size items f) {x : ι} (hpos : 0 < (run x).len)
    (hin : (run x).start + (run x).len ≤ size) (hfree : ∀ i, (run x).Mem i → f i = 0) :
    TableOf run size (x :: items) (fill f (run x).start (run x).len (run x).len) := by
  have hap := fun y hy => h.apart_of_free (x := y) hpos hfree hy
  constructor
  · exact List.pairwise_cons.mpr ⟨hap, h.apart⟩
  · exact List.forall_mem_cons.mpr ⟨hpos, h.pos⟩
  · exact List.forall_mem_cons.mpr ⟨hin, h.inside⟩
  · refine List.forall_mem_cons.mpr ⟨fun i hi => ?_, fun y hy i hi => ?_⟩
    · rw [fill_apply, if_pos hi]
    · rw [fill_apply, if_neg ((hap y hy).symm.not_mem hi), h.held y hy i hi]
  · intro i hi hno
    rw [List.forall_mem_cons] at hno
    rw [fill_apply, if_neg hno.1, h.free i hi hno.2]

theorem erase [DecidableEq ι] (h : TableOf run size items f) {x : ι} (hx : x ∈ items) :
    TableOf run size (items.erase x) (fill f (run x).start 0 (run x).len) := by
  have hsub := List.erase_subset (a := x) (l := items)
  have hap : ∀ y ∈ items.erase x, Run.Apart (run x) (run y) := by
    have hperm := List.perm_cons_erase hx
    have := hperm.pairwise h.apart fun hxy => Run.Apart.symm hxy
    exact (List.pairwise_cons.mp this).1
  constructor
  · exact h.apart.sublist List.erase_sublist
  · exact fun y hy => h.pos y (hsub hy)
  · exact fun y hy => h.inside y (hsub hy)
  · intro y hy i hi
    rw [fill_apply, if_neg ((hap y hy).symm.not_mem hi), h.held y (hsub hy) i hi]
  · intro i hi hno
    rw [fill_apply]
    split_ifs with hxi
    · rfl
    · refine h.free i hi fun y hy => ?_
      by_cases hyx : y = x
      · exact hyx ▸ hxi
      · exact hno y ((List.mem_erase_of_ne hyx).mpr hy)

theorem agree (h : TableOf run size items f) {new : List ι} {g : ℕ → ℕ}
    (h' : TableOf run size (new ++ items) g) {i : ℕ} (hi : i < size)
    (hno : ∀ x ∈ new, ¬ (run x).Mem i) : g i = f i := by
  by_cases hx : ∃ x ∈ items, (run x).Mem i
  · obtain ⟨x, hx, hxi⟩ := hx
    rw [h.held x hx i hxi, h'.held x (List.mem_append_right new hx) i hxi]
  · have hfree : ∀ x ∈ items, ¬ (run x).Mem i := fun x hmem hxi => hx ⟨x, hmem, hxi⟩
    rw [h.free i hi hfree]
    apply h'.free i hi
    exact List.forall_mem_append.mpr ⟨hno, hfree⟩

theorem start_held (h : TableOf run size items f) {x : ι} (hx : x ∈ items) :
    f (run x).start = (run x).len :=
  h.held x hx _ ⟨le_rfl, Nat.lt_add_of_pos_right (h.pos x hx)⟩

end TableOf
end EnvirMonitor.Machine
