import EnvirMonitor.Arp.Table
import EnvirMonitor.Machine.SlotTable
import Mathlib.Data.Set.Function

/-! What the events say of the table, and what every function of `etharp.c` keeps of it. -/

namespace EnvirMonitor.Arp
open Machine Lwip

/-- The hardware address last heard for an address, and the calls of `etharp_tmr` since. -/
def heardOf (ipaddr : U32) : List ArpEvent → Option (EthAddr × ℕ)
  | [] => none
  | .heard a m :: log => if a = ipaddr then some (m, 0) else heardOf ipaddr log
  | .tick :: log => (heardOf ipaddr log).map fun x => (x.1, x.2 + 1)
  | _ :: log => heardOf ipaddr log

/-- The calls of `etharp_tmr` since a packet was last queued for an address. -/
def heldFor (x : U32 × List U8) : List ArpEvent → Option ℕ
  | [] => none
  | .hold a p :: log => if (a, p) = x then some 0 else heldFor x log
  | .tick :: log => (heldFor x log).map (· + 1)
  | _ :: log => heldFor x log

def holds (log : List ArpEvent) : List (U32 × List U8) :=
  log.filterMap fun
    | .hold a p => some (a, p)
    | _ => none

def released (log : List ArpEvent) : List (U32 × List U8) :=
  log.filterMap fun
    | .flush a _ p => some (a, p)
    | .drop a p => some (a, p)
    | _ => none

theorem holds_append (log log' : List ArpEvent) : holds (log ++ log') = holds log ++ holds log' :=
  List.filterMap_append

theorem released_append (log log' : List ArpEvent) :
    released (log ++ log') = released log ++ released log' := List.filterMap_append

def entryHeld (e : EtharpEntry) : List (U32 × List U8) := (e.q.map fun p => (e.ipaddr, p)).toList

def queued (arpTable : Slot → EtharpEntry) : List (U32 × List U8) :=
  (List.finRange arpTableSize).flatMap fun i => entryHeld (arpTable i)

/-- Every packet that was sent with an entry went to the address last heard, not long before. -/
def Truthful : List ArpEvent → Prop
  | [] => True
  | .pass a m _ :: log => (∃ k < 240, heardOf a log = some (m, k)) ∧ Truthful log
  | .flush a m _ :: log => (∃ k < 240, heardOf a log = some (m, k)) ∧ Truthful log
  | _ :: log => Truthful log

/-- One entry, whose `ctime` still lacks `late` calls of `etharp_tmr`, and whose hardware address
is not the last one heard while its address is among `off`. -/
structure EntryInv (netif : EtharpNetif) (off : U32 → Prop) (late : ℕ) (log : List ArpEvent)
    (e : EtharpEntry) : Prop where
  unicast : e.state ≠ .empty → nonUnicast netif e.ipaddr = false
  known : e.state.resolved = true → ¬ off e.ipaddr →
    heardOf e.ipaddr log = some (e.ethaddr, e.ctime.toNat + late)
  waits : ∀ p, e.q = some p → e.state = .pending ∧
    ∃ k ≤ e.ctime.toNat + late, heldFor (e.ipaddr, p) log = some k
  netif_eq : e.netif = e.state.resolved
  age : e.ctime.toNat < 240
  pendingAge : e.state = .pending → e.ctime.toNat < 2

structure Inv (netif : EtharpNetif) (off : U32 → Prop) (late : Slot → ℕ) (s : Etharp) : Prop where
  distinct : Set.InjOn (fun i => (s.arpTable i).ipaddr) {i | (s.arpTable i).state ≠ .empty}
  entry : ∀ i, EntryInv netif off (late i) s.log (s.arpTable i)
  truthful : Truthful s.log
  settled : ∀ x, (holds s.log).count x = (released s.log).count x + (queued s.arpTable).count x

def ArpEvent.Silent : ArpEvent → Prop
  | heard _ _ => False
  | tick => False
  | _ => True

theorem heardOf_silent {ev : ArpEvent} (hev : ev.Silent) (a : U32) (log : List ArpEvent) :
    heardOf a (ev :: log) = heardOf a log := by
  cases ev with
  | heard _ _ => exact hev.elim
  | tick => exact hev.elim
  | _ => rfl

theorem heldFor_silent {ev : ArpEvent} (hev : ev.Silent) {x : U32 × List U8} {log : List ArpEvent}
    {k : ℕ} (h : heldFor x log = some k) : ∃ j ≤ k, heldFor x (ev :: log) = some j := by
  cases ev with
  | heard _ _ => exact hev.elim
  | tick => exact hev.elim
  | hold a p =>
    rw [heldFor]
    split_ifs
    · exact ⟨0, Nat.zero_le k, rfl⟩
    · exact ⟨k, le_rfl, h⟩
  | _ => exact ⟨k, le_rfl, h⟩

section
variable {netif : EtharpNetif} {off : U32 → Prop} {late : Slot → ℕ} {s : Etharp}

theorem EntryInv.silent {late : ℕ} {log : List ArpEvent} {e : EtharpEntry}
    (h : EntryInv netif off late log e) {ev : ArpEvent} (hev : ev.Silent) :
    EntryInv netif off late (ev :: log) e where
  unicast := h.unicast
  known := fun hres hoff => (heardOf_silent hev _ _).trans (h.known hres hoff)
  waits := fun p hp => by
    obtain ⟨hpending, k, hk, hheld⟩ := h.waits p hp
    obtain ⟨j, hj, hheld⟩ := heldFor_silent hev hheld
    exact ⟨hpending, j, hj.trans hk, hheld⟩
  netif_eq := h.netif_eq
  age := h.age
  pendingAge := h.pendingAge

theorem entryInv_empty (off : U32 → Prop) (late : ℕ) (log : List ArpEvent) :
    EntryInv netif off late log emptyEntry where
  unicast := fun h => absurd rfl h
  known := fun h => nomatch h
  waits := fun _ h => nomatch h
  netif_eq := rfl
  age := by decide
  pendingAge := fun h => nomatch h

theorem EntryInv.q_eq_none {late : ℕ} {log : List ArpEvent} {e : EtharpEntry}
    (h : EntryInv netif off late log e) (hstate : e.state ≠ .pending) : e.q = none :=
  Option.eq_none_iff_forall_ne_some.mpr fun p hp => hstate (h.waits p hp).1

theorem count_queued (arpTable : Slot → EtharpEntry) (i : Slot) (e : EtharpEntry)
    (x : U32 × List U8) :
    (queued (Function.update arpTable i e)).count x + (entryHeld (arpTable i)).count x =
      (queued arpTable).count x + (entryHeld e).count x := by
  have hupdate : (fun j => entryHeld (Function.update arpTable i e j)) =
      Function.update (fun j => entryHeld (arpTable j)) i (entryHeld e) :=
    funext fun j => Function.apply_update (fun _ => entryHeld) arpTable i e j
  rw [queued, queued, hupdate]
  exact count_flatMap_update (List.nodup_finRange _) (List.mem_finRange i) _ _ x

/-- One entry changes, while nothing arrives: what it takes to keep the invariant. -/
theorem Inv.change (h : Inv netif off late s) (i : Slot) {e : EtharpEntry} (log : List ArpEvent)
    {late' : Slot → ℕ} (hlate : ∀ j, j ≠ i → late' j = late j)
    (hkept : ∀ (l : ℕ) f, EntryInv netif off l s.log f → EntryInv netif off l log f)
    (hentry : EntryInv netif off (late' i) log e)
    (hkey : e.state ≠ .empty → ∀ j, j ≠ i → (s.arpTable j).state ≠ .empty →
      (s.arpTable j).ipaddr ≠ e.ipaddr)
    (htruthful : Truthful log)
    (hcount : ∀ x, (holds log).count x + (released s.log).count x +
      (entryHeld (s.arpTable i)).count x =
        (holds s.log).count x + (released log).count x + (entryHeld e).count x) (c : Slot) :
    Inv netif off late' ⟨Function.update s.arpTable i e, c, log⟩ where
  distinct := by
    rintro j (hj : (Function.update s.arpTable i e j).state ≠ .empty) k
      (hk : (Function.update s.arpTable i e k).state ≠ .empty)
      (hjk : (Function.update s.arpTable i e j).ipaddr = (Function.update s.arpTable i e k).ipaddr)
    by_cases hji : j = i <;> by_cases hki : k = i
    · exact hji.trans hki.symm
    · subst hji
      rw [Function.update_self] at hj hjk
      rw [Function.update_of_ne hki] at hk hjk
      exact absurd hjk.symm (hkey hj k hki hk)
    · subst hki
      rw [Function.update_self] at hk hjk
      rw [Function.update_of_ne hji] at hj hjk
      exact absurd hjk (hkey hk j hji hj)
    · rw [Function.update_of_ne hji] at hj hjk
      rw [Function.update_of_ne hki] at hk hjk
      exact h.distinct hj hk hjk
  entry := fun j => by
    by_cases hji : j = i
    · subst hji
      simpa only [Function.update_self] using hentry
    · simpa only [Function.update_of_ne hji, hlate j hji] using hkept _ _ (h.entry j)
  truthful := htruthful
  settled := fun x => by
    have hsettled := h.settled x
    have hqueued := count_queued s.arpTable i e x
    have := hcount x
    simp only
    omega

theorem Inv.emit (h : Inv netif off late s) {ev : ArpEvent} (hev : ev.Silent)
    (htruthful : Truthful (ev :: s.log)) (hholds : holds [ev] = []) (hreleased : released [ev] = []) :
    Inv netif off late (s.emit ev) where
  distinct := h.distinct
  entry := fun i => (h.entry i).silent hev
  truthful := htruthful
  settled := fun x => by
    rw [Etharp.emit, ← List.singleton_append, holds_append, released_append, hholds, hreleased]
    exact h.settled x

theorem Inv.cached (h : Inv netif off late s) (i : Slot) :
    Inv netif off late { s with cachedEntry := i } :=
  ⟨h.distinct, h.entry, h.truthful, h.settled⟩

theorem Inv.set (h : Inv netif off late s) (i : Slot) {e : EtharpEntry} {late' : Slot → ℕ}
    (hlate : ∀ j, j ≠ i → late' j = late j) (hentry : EntryInv netif off (late' i) s.log e)
    (hheld : entryHeld e = entryHeld (s.arpTable i))
    (hkey : e.state ≠ .empty → ∀ j, j ≠ i → (s.arpTable j).state ≠ .empty →
      (s.arpTable j).ipaddr ≠ e.ipaddr) : Inv netif off late' (s.setEntry i e) :=
  h.change i s.log hlate (fun _ _ hf => hf) hentry hkey h.truthful (fun x => by rw [hheld]) s.cachedEntry

theorem Inv.key (h : Inv netif off late s) {i : Slot} (hi : (s.arpTable i).state ≠ .empty) (j : Slot)
    (hji : j ≠ i) (hj : (s.arpTable j).state ≠ .empty) :
    (s.arpTable j).ipaddr ≠ (s.arpTable i).ipaddr :=
  fun heq => hji (h.distinct hj hi heq)

theorem setEntry_self (s : Etharp) (i : Slot) (e : EtharpEntry) : (s.setEntry i e).arpTable i = e :=
  Function.update_self ..

theorem setEntry_ne (s : Etharp) {i j : Slot} (h : j ≠ i) (e : EtharpEntry) :
    (s.setEntry i e).arpTable j = s.arpTable j := Function.update_of_ne h ..

theorem arpTable_free (i : Slot) (s : Etharp) :
    (etharpFreeEntry i s).arpTable = Function.update s.arpTable i emptyEntry := by
  rw [etharpFreeEntry]
  cases (s.arpTable i).q <;> rfl

theorem setEntry_setEntry (s : Etharp) (i : Slot) (e e' : EtharpEntry) :
    (s.setEntry i e).setEntry i e' = s.setEntry i e' := by
  rw [Etharp.setEntry, Etharp.setEntry, Function.update_idem]
  rfl

theorem free_setEntry (s : Etharp) (i : Slot) {e : EtharpEntry} (hq : e.q = (s.arpTable i).q)
    (hip : e.ipaddr = (s.arpTable i).ipaddr) :
    etharpFreeEntry i (s.setEntry i e) = etharpFreeEntry i s := by
  have hself : (s.setEntry i e).arpTable i = e := Function.update_self ..
  simp only [etharpFreeEntry, hself, hq, hip]
  cases (s.arpTable i).q with
  | none => exact setEntry_setEntry s i e emptyEntry
  | some p => exact setEntry_setEntry (s.emit _) i e emptyEntry

theorem Inv.free (h : Inv netif off late s) (i : Slot) {late' : Slot → ℕ}
    (hlate : ∀ j, j ≠ i → late' j = late j) : Inv netif off late' (etharpFreeEntry i s) := by
  have hkey : emptyEntry.state ≠ .empty → ∀ j, j ≠ i → (s.arpTable j).state ≠ .empty →
      (s.arpTable j).ipaddr ≠ emptyEntry.ipaddr := fun hne => absurd rfl hne
  cases hq : (s.arpTable i).q with
  | none =>
    simp only [etharpFreeEntry, hq]
    refine h.set i hlate (entryInv_empty ..) ?_ hkey
    rw [entryHeld, entryHeld, hq]
    rfl
  | some p =>
    simp only [etharpFreeEntry, hq]
    refine h.change i (.drop (s.arpTable i).ipaddr p :: s.log) hlate (fun _ _ hf => hf.silent trivial)
      (entryInv_empty ..) hkey h.truthful (fun x => ?_) s.cachedEntry
    have hheld : entryHeld (s.arpTable i) = [((s.arpTable i).ipaddr, p)] := by
      rw [entryHeld, hq]
      rfl
    have hreleased : released (.drop (s.arpTable i).ipaddr p :: s.log) =
        ((s.arpTable i).ipaddr, p) :: released s.log := rfl
    have hholds : holds (.drop (s.arpTable i).ipaddr p :: s.log) = holds s.log := rfl
    have hempty : entryHeld emptyEntry = [] := rfl
    rw [hheld, hreleased, hholds, hempty, List.count_cons, List.count_cons]
    simp only [List.count_nil]
    ring

/-! ## The timer -/

theorem heardOf_tick (a : U32) (log : List ArpEvent) :
    heardOf a (.tick :: log) = (heardOf a log).map fun x => (x.1, x.2 + 1) := rfl

theorem Inv.tick (h : Inv netif off (fun _ => 0) s) : Inv netif off (fun _ => 1) (s.emit .tick) where
  distinct := h.distinct
  entry := fun i => {
    unicast := (h.entry i).unicast
    known := fun hres hoff => by
      have hknown := (h.entry i).known hres hoff
      simp only [Etharp.emit, heardOf_tick] at hknown ⊢
      rw [hknown]
      rfl
    waits := fun p hp => by
      obtain ⟨hpending, k, hk, hheld⟩ := (h.entry i).waits p hp
      refine ⟨hpending, k + 1, by simp only [Etharp.emit] at hk ⊢; omega, ?_⟩
      simp only [Etharp.emit, heldFor] at hheld ⊢
      rw [hheld]
      rfl
    netif_eq := (h.entry i).netif_eq
    age := (h.entry i).age
    pendingAge := (h.entry i).pendingAge }
  truthful := h.truthful
  settled := h.settled

theorem toNat_succ {c : U8} (h : c.toNat < 240) : (c + 1).toNat = c.toNat + 1 := by
  have hone : (1 : U8).toNat = 1 := rfl
  rw [BitVec.toNat_add, hone]
  exact Nat.mod_eq_of_lt (by omega)

/-- One turn of the loop of `etharp_tmr` makes up for the call at its entry. -/
theorem Inv.tmrEntry (h : Inv netif off late s) {i : Slot} (hi : late i = 1) :
    Inv netif off (Function.update late i 0) (etharpTmrEntry s i) := by
  have hlate : ∀ j, j ≠ i → Function.update late i 0 j = late j :=
    fun j hj => Function.update_of_ne hj ..
  have hentry := h.entry i
  rw [hi] at hentry
  have hsucc := toNat_succ hentry.age
  simp only [etharpTmrEntry]
  split_ifs with hempty hold hrerequest
  · refine ⟨h.distinct, fun j => ?_, h.truthful, h.settled⟩
    by_cases hj : j = i
    · subst hj
      have hq := hentry.q_eq_none (by rw [hempty]; exact fun h => nomatch h)
      exact {
        unicast := hentry.unicast
        known := fun hres => absurd hres (by rw [hempty]; exact fun h => nomatch h)
        waits := fun p hp => absurd hp (by rw [hq]; exact fun h => nomatch h)
        netif_eq := hentry.netif_eq
        age := hentry.age
        pendingAge := hentry.pendingAge }
    · rw [hlate j hj]
      exact h.entry j
  · rw [free_setEntry s i (by rfl) (by rfl)]
    exact h.free i hlate
  all_goals
    rw [not_or, not_and] at hold
    have hage : (s.arpTable i).ctime.toNat + 1 < 240 := by
      have hyoung := hold.1
      rw [arpMaxage, BitVec.le_def, hsucc, not_le] at hyoung
      exact hyoung
    have hpending (hp : (s.arpTable i).state = .pending) : (s.arpTable i).ctime.toNat + 1 < 2 := by
      have hyoung := hold.2 hp
      rw [arpMaxpending, BitVec.le_def, hsucc, not_le] at hyoung
      exact hyoung
    try rw [setEntry_setEntry]
    refine h.set i hlate ?_ rfl fun _ => h.key hempty
    rw [Function.update_self]
  · exact {
      unicast := fun _ => hentry.unicast hempty
      known := fun _ hoff => by
        rw [hentry.known (by rw [hrerequest]; rfl) hoff, hsucc]
      waits := fun p hp => by
        have := (hentry.waits p hp).1
        rw [hrerequest] at this
        nomatch this
      netif_eq := by rw [hentry.netif_eq, hrerequest]; rfl
      age := by rw [hsucc]; exact hage
      pendingAge := fun h => nomatch h }
  · exact {
      unicast := hentry.unicast
      known := fun hres hoff => by rw [hentry.known hres hoff, hsucc]
      waits := fun p hp => by rw [hsucc]; exact hentry.waits p hp
      netif_eq := hentry.netif_eq
      age := by rw [hsucc]; exact hage
      pendingAge := fun hp => by rw [hsucc]; exact hpending hp }

theorem Inv.tmr (h : Inv netif off (fun _ => 0) s) : Inv netif off (fun _ => 0) (etharpTmr s) := by
  have hloop (slots : List Slot) (hn : slots.Nodup) (s : Etharp)
      (hs : Inv netif off (fun j => if j ∈ slots then 1 else 0) s) :
      Inv netif off (fun _ => 0) (slots.foldl etharpTmrEntry s) := by
    induction slots generalizing s with
    | nil =>
      simp only [List.not_mem_nil, if_false] at hs
      exact hs
    | cons i slots ih =>
      obtain ⟨hi, hn⟩ := List.nodup_cons.mp hn
      refine ih hn _ ?_
      have hstep := hs.tmrEntry (i := i) (if_pos List.mem_cons_self)
      have hlate : (Function.update (fun j => if j ∈ i :: slots then 1 else 0) i 0 : Slot → ℕ) =
          fun j => if j ∈ slots then 1 else 0 := by
        funext j
        by_cases hj : j = i
        · rw [hj, Function.update_self, if_neg hi]
        · rw [Function.update_of_ne hj]
          simp only [List.mem_cons, hj, false_or]
      rw [hlate] at hstep
      exact hstep
  refine hloop _ (List.nodup_finRange _) _ ?_
  simpa only [List.mem_finRange, if_true] using h.tick

end

end EnvirMonitor.Arp
