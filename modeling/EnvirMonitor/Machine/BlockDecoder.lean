import Mathlib.Data.List.Basic
import Mathlib.Tactic

/-! Streams of fixed-length blocks that open with a two-symbol header. `decode`
reads a whole stream, `residual` is the part of it that waits for more symbols.
The two laws for appended streams are what lets a receiver that is fed symbol by
symbol be compared with the decoder. -/

namespace EnvirMonitor.Machine

/-- Blocks of `body + 2` symbols over `α`; `emit` maps a complete block to its value, if any. -/
structure BlockFormat (α β : Type*) where
  isHeader : α → α → Bool
  body : ℕ
  emit : List α → Option β

namespace BlockFormat
variable {α β : Type*} (F : BlockFormat α β)

/-- Two symbols are taken and dropped unless they are a header; a header takes its body too. -/
def decode : List α → List β
  | a :: b :: rest =>
    if F.isHeader a b then
      if F.body ≤ rest.length then
        (F.emit (a :: b :: rest.take F.body)).toList ++ decode (rest.drop F.body)
      else []
    else decode rest
  | _ => []
termination_by xs => xs.length
decreasing_by all_goals simp only [List.length_drop, List.length_cons]; omega

def residual : List α → List α
  | a :: b :: rest =>
    if F.isHeader a b then
      if F.body ≤ rest.length then residual (rest.drop F.body) else a :: b :: rest
    else residual rest
  | xs => xs
termination_by xs => xs.length
decreasing_by all_goals simp only [List.length_drop, List.length_cons]; omega

@[simp] theorem decode_nil : F.decode [] = [] := by simp [decode]

@[simp] theorem decode_single (a : α) : F.decode [a] = [] := by simp [decode]

@[simp] theorem residual_nil : F.residual [] = [] := by simp [residual]

@[simp] theorem residual_single (a : α) : F.residual [a] = [a] := by simp [residual]

variable {F}

theorem decode_skip {a b : α} (h : F.isHeader a b = false) (rest : List α) :
    F.decode (a :: b :: rest) = F.decode rest := by
  rw [decode]
  simp [h]

theorem residual_skip {a b : α} (h : F.isHeader a b = false) (rest : List α) :
    F.residual (a :: b :: rest) = F.residual rest := by
  rw [residual]
  simp [h]

theorem decode_short {a b : α} {rest : List α} (h : F.isHeader a b = true)
    (hlen : rest.length < F.body) : F.decode (a :: b :: rest) = [] := by
  rw [decode]
  simp [h, Nat.not_le.mpr hlen]

theorem residual_short {a b : α} {rest : List α} (h : F.isHeader a b = true)
    (hlen : rest.length < F.body) : F.residual (a :: b :: rest) = a :: b :: rest := by
  rw [residual]
  simp [h, Nat.not_le.mpr hlen]

theorem decode_block {a b : α} {rest : List α} (h : F.isHeader a b = true)
    (hlen : F.body ≤ rest.length) :
    F.decode (a :: b :: rest) =
      (F.emit (a :: b :: rest.take F.body)).toList ++ F.decode (rest.drop F.body) := by
  rw [decode]
  simp [h, hlen]

theorem residual_block {a b : α} {rest : List α} (h : F.isHeader a b = true)
    (hlen : F.body ≤ rest.length) :
    F.residual (a :: b :: rest) = F.residual (rest.drop F.body) := by
  rw [residual]
  simp [h, hlen]

/-- A stream is empty or a single symbol, or it opens with a whole block, with a block that lacks
some of its body, or with a pair that is no header. -/
@[elab_as_elim]
theorem stream_induction {motive : List α → Prop} (nil : motive []) (single : ∀ a, motive [a])
    (block : ∀ a b rest, F.isHeader a b = true → F.body ≤ rest.length →
      motive (rest.drop F.body) → motive (a :: b :: rest))
    (short : ∀ a b rest, F.isHeader a b = true → rest.length < F.body → motive (a :: b :: rest))
    (skip : ∀ a b rest, F.isHeader a b = false → motive rest → motive (a :: b :: rest))
    (xs : List α) : motive xs := by
  induction xs using residual.induct F with
  | case1 a b rest hhead hlen ih => exact block a b rest hhead hlen ih
  | case2 a b rest hhead hlen => exact short a b rest hhead (Nat.lt_of_not_le hlen)
  | case3 a b rest hhead ih => exact skip a b rest (Bool.eq_false_of_not_eq_true hhead) ih
  | case4 xs hxs =>
    match xs, hxs with
    | [], _ => exact nil
    | [a], _ => exact single a
    | a :: b :: rest, hxs => exact absurd rfl (hxs a b rest)

theorem le_length_append {rest : List α} (hlen : F.body ≤ rest.length) (ys : List α) :
    F.body ≤ (rest ++ ys).length := by
  rw [List.length_append]
  exact Nat.le_add_right_of_le hlen

/-- Decoding can be resumed from what an earlier part of the stream left over. -/
theorem decode_append (xs ys : List α) :
    F.decode (xs ++ ys) = F.decode xs ++ F.decode (F.residual xs ++ ys) := by
  induction xs using stream_induction (F := F) with
  | nil => simp
  | single a => simp
  | block a b rest hhead hlen ih =>
    rw [List.cons_append, List.cons_append, decode_block hhead (le_length_append hlen ys),
      decode_block hhead hlen, residual_block hhead hlen, List.take_append_of_le_length hlen,
      List.drop_append_of_le_length hlen, ih, List.append_assoc]
  -- `ys` may complete the block
  | short a b rest hhead hlt =>
    rw [decode_short hhead hlt, residual_short hhead hlt, List.nil_append]
  | skip a b rest hno ih =>
    rw [List.cons_append, List.cons_append, decode_skip hno, decode_skip hno,
      residual_skip hno, ih]

theorem residual_append (xs ys : List α) :
    F.residual (xs ++ ys) = F.residual (F.residual xs ++ ys) := by
  induction xs using stream_induction (F := F) with
  | nil => simp
  | single a => simp
  | block a b rest hhead hlen ih =>
    rw [List.cons_append, List.cons_append, residual_block hhead (le_length_append hlen ys),
      residual_block hhead hlen, List.drop_append_of_le_length hlen, ih]
  | short a b rest hhead hlt => rw [residual_short hhead hlt]
  | skip a b rest hno ih =>
    rw [List.cons_append, List.cons_append, residual_skip hno, residual_skip hno, ih]

theorem residual_shape (xs : List α) :
    F.residual xs = [] ∨ (∃ a, F.residual xs = [a]) ∨
      ∃ a b rest, F.residual xs = a :: b :: rest ∧ F.isHeader a b = true ∧
        rest.length < F.body := by
  induction xs using stream_induction (F := F) with
  | nil => simp
  | single a => simp
  | block a b rest hhead hlen ih => rwa [residual_block hhead hlen]
  | short a b rest hhead hlt =>
    exact Or.inr (Or.inr ⟨a, b, rest, residual_short hhead hlt, hhead, hlt⟩)
  | skip a b rest hno ih => rwa [residual_skip hno]

theorem mem_decode {xs : List α} {v : β} (hv : v ∈ F.decode xs) :
    ∃ pre a b body post, xs = pre ++ (a :: b :: body) ++ post ∧ body.length = F.body ∧
      F.isHeader a b = true ∧ F.emit (a :: b :: body) = some v := by
  induction xs using stream_induction (F := F) with
  | nil => simp at hv
  | single a => simp at hv
  | block a b rest hhead hlen ih =>
    rw [decode_block hhead hlen, List.mem_append] at hv
    rcases hv with hv | hv
    · refine ⟨[], a, b, rest.take F.body, rest.drop F.body, by simp, by simpa using hlen, hhead, ?_⟩
      simpa using hv
    · obtain ⟨pre, a', b', body, post, heq, hbody, hhead', hemit⟩ := ih hv
      refine ⟨a :: b :: rest.take F.body ++ pre, a', b', body, post, ?_, hbody, hhead', hemit⟩
      calc
        a :: b :: rest = a :: b :: (rest.take F.body ++ rest.drop F.body) := by
          rw [List.take_append_drop]
        _ = _ := by rw [heq]; simp
  | short a b rest hhead hlt => simp [decode_short hhead hlt] at hv
  | skip a b rest hno ih =>
    rw [decode_skip hno] at hv
    obtain ⟨pre, a', b', body, post, heq, hrest⟩ := ih hv
    exact ⟨a :: b :: pre, a', b', body, post, by simp [heq], hrest⟩

theorem residual_drop_pairs {xs : List α} (n o : ℕ) (hlen : o + 2 * n ≤ xs.length)
    (hpair : ∀ i, i < n → ∀ a b, xs[o + 2 * i]? = some a → xs[o + 2 * i + 1]? = some b →
      F.isHeader a b = false) :
    F.residual (xs.drop o) = F.residual (xs.drop (o + 2 * n)) := by
  induction n with
  | zero => rfl
  | succ n ih =>
    rw [ih (by omega) fun i hi => hpair i (by omega)]
    have h0 : o + 2 * n < xs.length := by omega
    have h1 : o + 2 * n + 1 < xs.length := by omega
    rw [List.drop_eq_getElem_cons h0, List.drop_eq_getElem_cons h1,
      residual_skip (hpair n (by omega) _ _ (List.getElem?_eq_getElem h0)
        (List.getElem?_eq_getElem h1))]
    rfl

theorem decode_eq_nil_of_length {xs : List α} (h : xs.length < F.body + 2) : F.decode xs = [] := by
  by_contra hne
  obtain ⟨v, hv⟩ := List.exists_mem_of_ne_nil _ hne
  obtain ⟨pre, a, b, body, post, heq, hbody, -⟩ := mem_decode hv
  have := congrArg List.length heq
  simp only [List.length_append, List.length_cons] at this
  omega

end BlockFormat
end EnvirMonitor.Machine
