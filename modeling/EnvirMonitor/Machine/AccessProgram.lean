import Mathlib.Tactic

/-! Programs that reach a device through single accesses, run against a device that answers
each access, with an interrupt handler placed between two accesses. -/

namespace EnvirMonitor.Machine

/-- `spin` stands for a loop that is still going when its fuel is used up. -/
inductive Prog (Op : Type) (Res : Op → Type) (α : Type) : Type
  | ret (a : α)
  | act (op : Op) (next : Res op → Prog Op Res α)
  | spin

abbrev Device (Op : Type) (Res : Op → Type) (σ : Type) := (op : Op) → σ → Res op × σ

namespace Prog
variable {Op : Type} {Res : Op → Type} {α β γ σ : Type}

def bind : Prog Op Res α → (α → Prog Op Res β) → Prog Op Res β
  | ret a, f => f a
  | act op next, f => act op fun r => (next r).bind f
  | spin, _ => spin

instance : Monad (Prog Op Res) where
  pure := ret
  bind := bind

@[simp] theorem pure_bind (a : α) (f : α → Prog Op Res β) : (pure a >>= f) = f a := rfl

@[simp] theorem act_bind (op : Op) (next : Res op → Prog Op Res α) (f : α → Prog Op Res β) :
    (act op next >>= f) = act op fun r => next r >>= f := rfl

@[simp] theorem spin_bind (f : α → Prog Op Res β) : (spin >>= f) = spin := rfl

theorem bind_assoc (p : Prog Op Res α) (f : α → Prog Op Res β) (g : β → Prog Op Res γ) :
    (p >>= f >>= g) = p >>= fun a => f a >>= g := by
  induction p with
  | ret a => rfl
  | act op next ih => exact congrArg (act op) (funext ih)
  | spin => rfl

theorem bind_pure (p : Prog Op Res α) : p >>= pure = p := by
  induction p with
  | ret a => rfl
  | act op next ih => exact congrArg (act op) (funext ih)
  | spin => rfl

def perform (op : Op) : Prog Op Res (Res op) := act op ret

@[simp] theorem perform_bind (op : Op) (f : Res op → Prog Op Res β) :
    (perform op >>= f) = act op f := rfl

/-- Straight-line code: the accesses of a list, whose answers nobody looks at. -/
def performAll : List Op → Prog Op Res Unit
  | [] => pure ()
  | op :: ops => act op fun _ => performAll ops

theorem performAll_append (ops ops' : List Op) :
    (performAll (ops ++ ops') : Prog Op Res Unit) =
      performAll ops >>= fun _ => performAll ops' := by
  induction ops with
  | nil => rfl
  | cons op ops ih => exact congrArg (act op) (funext fun _ => ih)

def forEach (body : β → Prog Op Res Unit) : List β → Prog Op Res Unit
  | [] => pure ()
  | x :: xs => body x >>= fun _ => forEach body xs

theorem forEach_append (body : β → Prog Op Res Unit) (xs ys : List β) :
    forEach body (xs ++ ys) = forEach body xs >>= fun _ => forEach body ys := by
  induction xs with
  | nil => rfl
  | cons x xs ih => rw [List.cons_append, forEach, forEach, ih, bind_assoc]

/-! ## The accesses a program makes -/

/-- Whatever is answered, the program returns after `n` accesses. -/
inductive Makes : ℕ → Prog Op Res α → Prop
  | ret (a : α) : Makes 0 (.ret a)
  | act {n : ℕ} {op : Op} {next : Res op → Prog Op Res α} (hnext : ∀ r, Makes n (next r)) :
    Makes (n + 1) (.act op next)

/-- Each access of the program is of the kind `P`, and it returns a value with `Q`. -/
inductive Only (P : Op → Prop) (Q : α → Prop) : Prog Op Res α → Prop
  | ret {a : α} (ha : Q a) : Only P Q (.ret a)
  | act {op : Op} {next : Res op → Prog Op Res α} (hop : P op) (hnext : ∀ r, Only P Q (next r)) :
    Only P Q (.act op next)

theorem Makes.bind {n m : ℕ} {p : Prog Op Res α} {f : α → Prog Op Res β} (hp : Makes n p)
    (hf : ∀ a, Makes m (f a)) : Makes (n + m) (p >>= f) := by
  induction hp with
  | ret a =>
    rw [Nat.zero_add]
    exact hf a
  | act _ ih =>
    rw [Nat.add_right_comm]
    exact .act ih

theorem Makes.forEach {n : ℕ} {body : β → Prog Op Res Unit} (hbody : ∀ x, Makes n (body x))
    (xs : List β) : Makes (xs.length * n) (Prog.forEach body xs) := by
  induction xs with
  | nil =>
    rw [List.length_nil, Nat.zero_mul]
    exact .ret ()
  | cons x xs ih =>
    rw [List.length_cons, Nat.succ_mul, Nat.add_comm]
    exact (hbody x).bind fun _ => ih

theorem Only.bind {P : Op → Prop} {Q : α → Prop} {R : β → Prop} {p : Prog Op Res α}
    {f : α → Prog Op Res β} (hp : p.Only P Q) (hf : ∀ a, Q a → (f a).Only P R) :
    (p >>= f).Only P R := by
  induction hp with
  | ret ha => exact hf _ ha
  | act hop _ ih => exact .act hop ih

theorem Only.forEach {P : Op → Prop} {body : β → Prog Op Res Unit} {xs : List β}
    (hbody : ∀ x ∈ xs, (body x).Only P fun _ => True) :
    (Prog.forEach body xs).Only P fun _ => True := by
  induction xs with
  | nil => exact .ret trivial
  | cons x xs ih =>
    exact (hbody x List.mem_cons_self).bind fun _ _ =>
      ih fun y hy => hbody y (List.mem_cons_of_mem _ hy)

/-! ## Running -/

def run (dev : Device Op Res σ) : Prog Op Res α → σ → Option (α × σ)
  | ret a, s => some (a, s)
  | act op next, s => (next (dev op s).1).run dev (dev op s).2
  | spin, _ => none

@[simp] theorem run_pure (dev : Device Op Res σ) (a : α) (s : σ) :
    (pure a : Prog Op Res α).run dev s = some (a, s) := rfl

@[simp] theorem run_act (dev : Device Op Res σ) (op : Op) (next : Res op → Prog Op Res α)
    (s : σ) : (act op next).run dev s = (next (dev op s).1).run dev (dev op s).2 := rfl

@[simp] theorem run_spin (dev : Device Op Res σ) (s : σ) :
    (spin : Prog Op Res α).run dev s = none := rfl

theorem run_bind (dev : Device Op Res σ) (p : Prog Op Res α) (f : α → Prog Op Res β) (s : σ) :
    (p >>= f).run dev s = (p.run dev s).bind fun x => (f x.1).run dev x.2 := by
  induction p generalizing s with
  | ret a => rfl
  | act op next ih => exact ih _ _
  | spin => rfl

theorem run_bind_of {dev : Device Op Res σ} {p : Prog Op Res α} {a : α} {s s' : σ}
    (h : p.run dev s = some (a, s')) (f : α → Prog Op Res β) :
    (p >>= f).run dev s = (f a).run dev s' := by
  rw [run_bind, h, Option.bind_some]

def after (dev : Device Op Res σ) (ops : List Op) (s : σ) : σ :=
  ops.foldl (fun s op => (dev op s).2) s

@[simp] theorem after_nil (dev : Device Op Res σ) (s : σ) : after dev [] s = s := rfl

@[simp] theorem after_cons (dev : Device Op Res σ) (op : Op) (ops : List Op) (s : σ) :
    after dev (op :: ops) s = after dev ops (dev op s).2 := rfl

theorem after_append (dev : Device Op Res σ) (ops ops' : List Op) (s : σ) :
    after dev (ops ++ ops') s = after dev ops' (after dev ops s) := List.foldl_append ..

theorem run_performAll (dev : Device Op Res σ) (ops : List Op) (s : σ) :
    (performAll ops : Prog Op Res Unit).run dev s = some ((), after dev ops s) := by
  induction ops generalizing s with
  | nil => rfl
  | cons op ops ih => exact ih _

theorem run_performAll_bind (dev : Device Op Res σ) (ops : List Op)
    (f : Unit → Prog Op Res α) (s : σ) :
    (performAll ops >>= f).run dev s = (f ()).run dev (after dev ops s) := by
  rw [run_bind, run_performAll]
  rfl

/-- What every access of the kind `P` keeps, a program that makes no others keeps. -/
theorem Only.run {P : Op → Prop} {Q : α → Prop} {p : Prog Op Res α} (hp : p.Only P Q)
    {dev : Device Op Res σ} {I : σ → Prop} (hI : ∀ op, P op → ∀ s, I s → I (dev op s).2) {s : σ}
    (hs : I s) : ∃ a s', p.run dev s = some (a, s') ∧ Q a ∧ I s' := by
  induction hp generalizing s with
  | ret ha => exact ⟨_, s, rfl, ha, hs⟩
  | act hop _ ih => exact ih _ (hI _ hop s hs)

/-! ## Preemption -/

/-- `handler` runs to completion when the program has performed `k` accesses. -/
def preempt (handler : Prog Op Res Unit) : ℕ → Prog Op Res α → Prog Op Res α
  | 0, p => handler >>= fun _ => p
  | k + 1, act op next => act op fun r => preempt handler k (next r)
  | _ + 1, ret a => ret a
  | _ + 1, spin => spin

theorem run_preempt_zero {handler : Prog Op Res Unit} {dev : Device Op Res σ} {s s' : σ}
    (h : handler.run dev s = some ((), s')) (p : Prog Op Res α) :
    (preempt handler 0 p).run dev s = p.run dev s' := run_bind_of h fun _ => p

theorem preempt_performAll (handler : Prog Op Res Unit) {k : ℕ} {ops : List Op}
    (h : k ≤ ops.length) (f : Unit → Prog Op Res α) :
    preempt handler k (performAll ops >>= f) =
      performAll (ops.take k) >>= fun _ => handler >>= fun _ => performAll (ops.drop k) >>= f := by
  induction ops generalizing k with
  | nil =>
    obtain rfl : k = 0 := Nat.le_zero.mp h
    rfl
  | cons op ops ih =>
    cases k with
    | zero => rfl
    | succ k => exact congrArg (act op) (funext fun _ => ih (Nat.le_of_succ_le_succ h))

theorem preempt_performAll_add (handler : Prog Op Res Unit) (k : ℕ) (ops : List Op)
    (f : Unit → Prog Op Res α) :
    preempt handler (ops.length + k) (performAll ops >>= f) =
      performAll ops >>= fun _ => preempt handler k (f ()) := by
  induction ops with
  | nil => simp [performAll]
  | cons op ops ih =>
    rw [List.length_cons, Nat.add_right_comm]
    exact congrArg (act op) (funext fun _ => ih)

theorem preempt_bind_of_le (handler : Prog Op Res Unit) {n k : ℕ} {p : Prog Op Res α}
    (hp : Makes n p) (hk : k ≤ n) (f : α → Prog Op Res β) :
    preempt handler k (p >>= f) = preempt handler k p >>= f := by
  induction hp generalizing k with
  | ret a =>
    obtain rfl : k = 0 := Nat.le_zero.mp hk
    exact (bind_assoc ..).symm
  | act _ ih =>
    cases k with
    | zero => exact (bind_assoc ..).symm
    | succ k => exact congrArg (act _) (funext fun r => ih r (Nat.le_of_succ_le_succ hk))

theorem preempt_bind_add (handler : Prog Op Res Unit) {n : ℕ} {p : Prog Op Res α}
    (hp : Makes n p) (k : ℕ) (f : α → Prog Op Res β) :
    preempt handler (n + k) (p >>= f) = p >>= fun a => preempt handler k (f a) := by
  induction hp with
  | ret a =>
    rw [Nat.zero_add]
    rfl
  | act _ ih =>
    rw [Nat.add_right_comm]
    exact congrArg (act _) (funext ih)

/-- A program that has returned is not interrupted any more. -/
theorem preempt_of_lt (handler : Prog Op Res Unit) {n k : ℕ} {p : Prog Op Res α}
    (hp : Makes n p) (hk : n < k) : preempt handler k p = p := by
  induction hp generalizing k with
  | ret a =>
    obtain ⟨k, rfl⟩ := Nat.exists_eq_succ_of_ne_zero (Nat.ne_of_gt hk)
    rfl
  | act _ ih =>
    obtain ⟨k, rfl⟩ := Nat.exists_eq_succ_of_ne_zero (Nat.ne_zero_of_lt hk)
    exact congrArg (act _) (funext fun r => ih r (Nat.lt_of_succ_lt_succ hk))

/-- What the handler establishes stands at the end where the rest of the program keeps it. -/
theorem Only.preempt_run {P : Op → Prop} {Q : α → Prop} {n k : ℕ} {p : Prog Op Res α}
    (hp : p.Only P Q) (hn : Makes n p) (hk : k ≤ n) {handler : Prog Op Res Unit}
    {dev : Device Op Res σ} {I J : σ → Prop} (hI : ∀ op, P op → ∀ s, I s → I (dev op s).2)
    (hJ : ∀ op, P op → ∀ s, J s → J (dev op s).2)
    (hhandler : ∀ s, J s → ∃ s', handler.run dev s = some ((), s') ∧ I s') {s : σ} (hs : J s) :
    ∃ a s', (preempt handler k p).run dev s = some (a, s') ∧ I s' := by
  induction k generalizing n p s with
  | zero =>
    obtain ⟨s', hrun, hs'⟩ := hhandler s hs
    obtain ⟨a, t, hrest, -, ht⟩ := hp.run hI hs'
    exact ⟨a, t, (run_preempt_zero hrun p).trans hrest, ht⟩
  | succ k ih =>
    cases hn with
    | ret a => exact absurd hk (Nat.not_succ_le_zero k)
    | act hn =>
      cases hp with
      | act hop hp => exact ih (hp _) (hn _) (Nat.le_of_succ_le_succ hk) (hJ _ hop s hs)

/-- A handler that leaves the state alone does not show. -/
theorem run_preempt_idle {handler : Prog Op Res Unit} {dev : Device Op Res σ} {J : σ → Prop}
    (hJ : ∀ op s, J s → J (dev op s).2) (hhandler : ∀ s, J s → handler.run dev s = some ((), s))
    (k : ℕ) (p : Prog Op Res α) {s : σ} (hs : J s) :
    (preempt handler k p).run dev s = p.run dev s := by
  induction k generalizing p s with
  | zero => exact run_preempt_zero (hhandler s hs) p
  | succ k ih =>
    cases p with
    | ret a => rfl
    | act op next => exact ih _ (hJ op s hs)
    | spin => rfl

end Prog
end EnvirMonitor.Machine
