import EnvirMonitor.Machine.AccessProgram

/-! Monitors of access programs: a state of one's own that follows every access and its reply,
with the accesses it allows and the replies a program may not tell apart. A program that obeys
a monitor does so on every device. -/

namespace EnvirMonitor.Machine

structure Monitor (Op : Type) (Res : Op → Type) (D : Type) where
  next : D → (op : Op) → Res op → D
  allowed : D → Op → Prop
  alike : D → (op : Op) → Res op → Res op → Prop

namespace Monitor

def watching {Op : Type} {Res : Op → Type} {D : Type} (next : D → (op : Op) → Res op → D) :
    Monitor Op Res D where
  next := next
  allowed _ _ := True
  alike _ _ := Eq

end Monitor

namespace Prog
variable {Op : Type} {Res : Op → Type} {α β σ D : Type} {M : Monitor Op Res D}

/-- Started in the monitor state `d` the program keeps to the monitor, and `post` holds of its
result and of the monitor's last state. -/
def Obeys (M : Monitor Op Res D) (post : α → D → Prop) : Prog Op Res α → D → Prop
  | ret a, d => post a d
  | act op cont, d => M.allowed d op ∧ (∀ r r', M.alike d op r r' → cont r = cont r') ∧
      ∀ r, Obeys M post (cont r) (M.next d op r)
  | spin, _ => True

variable {post post' : α → D → Prop} {d : D}

@[simp] theorem obeys_pure (a : α) : Obeys M post (pure a) d ↔ post a d := Iff.rfl

@[simp] theorem obeys_spin : Obeys M post (spin : Prog Op Res α) d := trivial

theorem obeys_mono {p : Prog Op Res α} (h : Obeys M post p d) (hpost : ∀ a d, post a d → post' a d) :
    Obeys M post' p d := by
  induction p generalizing d with
  | ret a => exact hpost a d h
  | act op cont ih => exact ⟨h.1, h.2.1, fun r => ih r (h.2.2 r)⟩
  | spin => trivial

theorem obeys_bind {p : Prog Op Res β} {f : β → Prog Op Res α}
    (h : Obeys M (fun b d => Obeys M post (f b) d) p d) : Obeys M post (p >>= f) d := by
  induction p generalizing d with
  | ret b => exact h
  | act op cont ih =>
    exact ⟨h.1, fun r r' hr => congrArg (fun p => p >>= f) (h.2.1 r r' hr), fun r => ih r (h.2.2 r)⟩
  | spin => trivial

/-- Straight-line code, when every access keeps an invariant whatever the reply. -/
theorem obeys_performAll {I : D → Prop} {ops : List Op}
    (hops : ∀ op ∈ ops, ∀ d, I d → M.allowed d op ∧ ∀ r, I (M.next d op r)) (hd : I d) :
    Obeys M (fun _ d => I d) (performAll ops) d := by
  induction ops generalizing d with
  | nil => exact hd
  | cons op ops ih =>
    obtain ⟨hallowed, hnext⟩ := hops op List.mem_cons_self d hd
    exact ⟨hallowed, fun _ _ _ => rfl,
      fun r => ih (fun op hop => hops op (List.mem_cons_of_mem _ hop)) (hnext r)⟩

theorem obeys_watching {next : D → (op : Op) → Res op → D} (p : Prog Op Res α) (d : D) :
    Obeys (Monitor.watching next) (fun _ _ => True) p d := by
  induction p generalizing d with
  | ret a => trivial
  | act op cont ih => exact ⟨trivial, fun _ _ hr => congrArg cont hr, fun r => ih r _⟩
  | spin => trivial

/-! ## Devices under a monitor -/

def monitored (M : Monitor Op Res D) (dev : Device Op Res σ) : Device Op Res (σ × D) :=
  fun op s => ((dev op s.1).1, ((dev op s.1).2, M.next s.2 op (dev op s.1).1))

theorem obeys_run {dev : Device Op Res σ} {p : Prog Op Res α} {s s' : σ} {d' : D} {a : α}
    (h : Obeys M post p d) (hrun : p.run (monitored M dev) (s, d) = some (a, (s', d'))) :
    post a d' := by
  induction p generalizing s d with
  | ret b =>
    obtain ⟨rfl, hs⟩ := Prod.mk.inj (Option.some.inj hrun)
    obtain ⟨-, rfl⟩ := Prod.mk.inj hs
    exact h
  | act op cont ih => exact ih _ (h.2.2 _) hrun
  | spin => exact absurd hrun (by simp)

end Prog
end EnvirMonitor.Machine
