import EnvirMonitor.Arp.Steps
import Mathlib.Data.Prod.Lex

/-! The sweep of `etharp_find_entry`: a match, an empty entry, or the entry that a full table can
best do without. -/

namespace EnvirMonitor.Arp
open Machine Lwip

variable {arpTable : Slot → EtharpEntry} {s : Etharp} {ipaddr : U32}

theorem resolved_or_pending {e : EtharpEntry} (h : e.state ≠ .empty) :
    e.state.resolved = true ∨ e.state = .pending := by
  cases hs : e.state with
  | empty => exact absurd hs h
  | pending => exact .inr rfl
  | stable => exact .inl rfl
  | stableRerequesting => exact .inl rfl

def ageOf (arpTable : Slot → EtharpEntry) (i : Slot) : ℕ := (arpTable i).ctime.toNat

structure Seen (arpTable : Slot → EtharpEntry) (seen : List Slot) (c : Candidates) : Prop where
  empty_some : ∀ i, c.empty = some i → (arpTable i).state = .empty
  empty_none : c.empty = none → ∀ i ∈ seen, (arpTable i).state ≠ .empty
  stable : Oldest (fun i => (arpTable i).state.resolved = true) (ageOf arpTable) seen c.oldStable
    c.ageStable.toNat
  pending : Oldest (fun i => (arpTable i).state = .pending ∧ (arpTable i).q = none)
    (ageOf arpTable) seen c.oldPending c.agePending.toNat
  queue : Oldest (fun i => (arpTable i).state = .pending ∧ (arpTable i).q ≠ none)
    (ageOf arpTable) seen c.oldQueue c.ageQueue.toNat

theorem Seen.start : Seen arpTable [] .start :=
  ⟨nofun, fun _ _ h => absurd h List.not_mem_nil, .start, .start, .start⟩

theorem Seen.empty {seen : List Slot} {c : Candidates} (h : Seen arpTable seen c) {i : Slot}
    (hi : (arpTable i).state = .empty) :
    Seen arpTable (i :: seen) (if c.empty.isNone then { c with empty := some i } else c) := by
  have hstable := h.stable.skip (i := i) (by rw [hi]; nofun)
  have hpending := h.pending.skip (i := i) (by rw [hi]; exact fun h => nomatch h.1)
  have hqueue := h.queue.skip (i := i) (by rw [hi]; exact fun h => nomatch h.1)
  split_ifs with hnone
  · refine ⟨fun j hj => Option.some.inj hj ▸ hi, nofun, hstable, hpending, hqueue⟩
  · refine ⟨h.empty_some, fun hempty => ?_, hstable, hpending, hqueue⟩
    rw [hempty] at hnone
    exact absurd rfl hnone

theorem Seen.remember {seen : List Slot} {c : Candidates} (h : Seen arpTable seen c) {i : Slot}
    (hi : (arpTable i).state ≠ .empty) :
    Seen arpTable (i :: seen) (c.remember i (arpTable i)) := by
  have hnone (hempty : c.empty = none) : ∀ j ∈ i :: seen, (arpTable j).state ≠ .empty :=
    List.forall_mem_cons.mpr ⟨hi, h.empty_none hempty⟩
  have hstable := h.stable.skip (i := i)
  have hpending := h.pending.skip (i := i)
  have hqueue := h.queue.skip (i := i)
  simp only [Candidates.remember]
  split_ifs with hstate hq hle hle hle
  · rw [hstate] at hstable
    exact ⟨h.empty_some, hnone, hstable nofun,
      hpending (fun h => by rw [h.2] at hq; nomatch hq),
      h.queue.remember ⟨hstate, Option.ne_none_iff_isSome.mpr hq⟩ hle⟩
  · rw [hstate] at hstable
    exact ⟨h.empty_some, hnone, hstable nofun,
      hpending (fun h => by rw [h.2] at hq; nomatch hq), h.queue.pass (not_le.mp hle)⟩
  · rw [hstate] at hstable
    have hq : (arpTable i).q = none := by simpa using hq
    exact ⟨h.empty_some, hnone, hstable nofun, h.pending.remember ⟨hstate, hq⟩ hle,
      hqueue fun h => h.2 hq⟩
  · rw [hstate] at hstable
    have hq : (arpTable i).q = none := by simpa using hq
    exact ⟨h.empty_some, hnone, hstable nofun, h.pending.pass (not_le.mp hle),
      hqueue fun h => h.2 hq⟩
  · have hres := (resolved_or_pending hi).resolve_right hstate
    exact ⟨h.empty_some, hnone, h.stable.remember hres hle, hpending fun h => hstate h.1,
      hqueue fun h => hstate h.1⟩
  · exact ⟨h.empty_some, hnone, h.stable.pass (not_le.mp hle), hpending fun h => hstate h.1,
      hqueue fun h => hstate h.1⟩

def Absent (s : Etharp) (ipaddr : U32) : Prop :=
  ∀ i, (s.arpTable i).state ≠ .empty → (s.arpTable i).ipaddr ≠ ipaddr

theorem sweep_inl {slots : List Slot} {c : Candidates} {i : Slot}
    (h : sweep arpTable ipaddr slots c = .inl i) :
    (arpTable i).state ≠ .empty ∧ (arpTable i).ipaddr = ipaddr := by
  induction slots generalizing c with
  | nil => nomatch h
  | cons j slots ih =>
    simp only [sweep] at h
    by_cases hempty : (arpTable j).state = .empty
    · rw [if_pos hempty] at h
      exact ih h
    · rw [if_neg hempty] at h
      split_ifs at h with hip
      · obtain rfl := Sum.inl.inj h
        exact ⟨hempty, hip.symm⟩
      · exact ih h

theorem sweep_inr {slots seen : List Slot} {c c' : Candidates} (hseen : Seen arpTable seen c)
    (h : sweep arpTable ipaddr slots c = .inr c') :
    (∀ i ∈ slots, (arpTable i).state ≠ .empty → (arpTable i).ipaddr ≠ ipaddr) ∧
      Seen arpTable (slots.reverse ++ seen) c' := by
  induction slots generalizing c seen with
  | nil => exact ⟨fun _ h => absurd h List.not_mem_nil, Sum.inr.inj h ▸ hseen⟩
  | cons j slots ih =>
    rw [List.reverse_cons, List.append_assoc, List.singleton_append, List.forall_mem_cons]
    simp only [sweep] at h
    by_cases hempty : (arpTable j).state = .empty
    · rw [if_pos hempty] at h
      obtain ⟨hrest, hall⟩ := ih (hseen.empty hempty) h
      exact ⟨⟨fun hne => absurd hempty hne, hrest⟩, hall⟩
    · rw [if_neg hempty] at h
      split_ifs at h with hip
      obtain ⟨hrest, hall⟩ := ih (hseen.remember hempty) h
      exact ⟨⟨fun _ heq => hip heq.symm, hrest⟩, hall⟩

/-! ## The choice -/

/-- How well the table can do without an entry: resolved entries go before pending ones, pending
ones with a packet go last. -/
def EtharpEntry.rank (e : EtharpEntry) : ℕ :=
  if e.state.resolved then 2 else if e.q = none then 1 else 0

def EtharpEntry.spare (e : EtharpEntry) : ℕ ×ₗ ℕ := toLex (e.rank, e.ctime.toNat)

theorem rank_of_resolved {e : EtharpEntry} (h : e.state.resolved = true) : e.rank = 2 := if_pos h

theorem rank_of_pending {e : EtharpEntry} (h : e.state = .pending) :
    e.rank = if e.q = none then 1 else 0 := by
  rw [EtharpEntry.rank, h]
  rfl

theorem spare_le_of_rank_lt {e e' : EtharpEntry} (h : e.rank < e'.rank) : e.spare ≤ e'.spare :=
  Prod.Lex.toLex_le_toLex.mpr (.inl h)

theorem spare_le_of_rank_eq {e e' : EtharpEntry} (h : e.rank = e'.rank)
    (hage : e.ctime.toNat ≤ e'.ctime.toNat) : e.spare ≤ e'.spare :=
  Prod.Lex.toLex_le_toLex.mpr (.inr ⟨h, hage⟩)

/-- A full table gives up an entry that it can do without as well as without any other. -/
theorem recycle_spare {seen : List Slot} {c : Candidates} (h : Seen arpTable seen c)
    (hall : ∀ i, i ∈ seen) (hempty : c.empty = none) :
    ∃ i, c.recycle = some i ∧ ∀ j, (arpTable j).spare ≤ (arpTable i).spare := by
  have hused (j : Slot) := resolved_or_pending (h.empty_none hempty j (hall j))
  cases hstable : c.oldStable with
  | some i =>
    obtain ⟨hres, hage⟩ := h.stable.found i hstable
    refine ⟨i, by rw [Candidates.recycle, hstable]; rfl, fun j => ?_⟩
    rcases hused j with hj | hj
    · refine spare_le_of_rank_eq ?_ ((h.stable.le j (hall j) hj).trans hage.ge)
      rw [rank_of_resolved hj, rank_of_resolved hres]
    · refine spare_le_of_rank_lt ?_
      rw [rank_of_pending hj, rank_of_resolved hres]
      split_ifs <;> omega
  | none =>
    have hp (j : Slot) : (arpTable j).state = .pending :=
      (hused j).resolve_left ((h.stable.missed hstable).2 j (hall j))
    cases hpending : c.oldPending with
    | some i =>
      obtain ⟨⟨-, hq⟩, hage⟩ := h.pending.found i hpending
      refine ⟨i, by rw [Candidates.recycle, hstable, hpending]; rfl, fun j => ?_⟩
      by_cases hqj : (arpTable j).q = none
      · refine spare_le_of_rank_eq ?_ ((h.pending.le j (hall j) ⟨hp j, hqj⟩).trans hage.ge)
        rw [rank_of_pending (hp j), rank_of_pending (hp i), if_pos hqj, if_pos hq]
      · refine spare_le_of_rank_lt ?_
        rw [rank_of_pending (hp j), rank_of_pending (hp i), if_neg hqj, if_pos hq]
        omega
    | none =>
      have hq (j : Slot) : (arpTable j).q ≠ none :=
        fun hqj => (h.pending.missed hpending).2 j (hall j) ⟨hp j, hqj⟩
      cases hqueue : c.oldQueue with
      | some i =>
        obtain ⟨-, hage⟩ := h.queue.found i hqueue
        refine ⟨i, by rw [Candidates.recycle, hstable, hpending, hqueue]; rfl, fun j => ?_⟩
        refine spare_le_of_rank_eq ?_ ((h.queue.le j (hall j) ⟨hp j, hq j⟩).trans hage.ge)
        rw [rank_of_pending (hp j), rank_of_pending (hp i), if_neg (hq j), if_neg (hq i)]
      | none => exact absurd ⟨hp 0, hq 0⟩ ((h.queue.missed hqueue).2 0 (hall 0))

inductive Found (ipaddr : U32) (flags : U8) (s : Etharp) : Etharp × Option Slot → Prop
  | matched (i : Slot) (hused : (s.arpTable i).state ≠ .empty)
      (hip : (s.arpTable i).ipaddr = ipaddr) : Found ipaddr flags s (s, some i)
  | absent (habsent : Absent s ipaddr) (hflags : flags = etharpFlagFindOnly) :
      Found ipaddr flags s (s, none)
  | fresh (i : Slot) (habsent : Absent s ipaddr) (hflags : flags = etharpFlagTryHard)
      (hempty : (s.arpTable i).state = .empty) : Found ipaddr flags s (s.create i ipaddr, some i)
  | recycled (i : Slot) (habsent : Absent s ipaddr) (hflags : flags = etharpFlagTryHard)
      (hfull : ∀ j, (s.arpTable j).state ≠ .empty)
      (hspare : ∀ j, (s.arpTable j).spare ≤ (s.arpTable i).spare) :
      Found ipaddr flags s ((etharpFreeEntry i s).create i ipaddr, some i)

theorem etharpFindEntry_found (ipaddr : U32) {flags : U8} (s : Etharp)
    (hflags : flags = etharpFlagTryHard ∨ flags = etharpFlagFindOnly) :
    Found ipaddr flags s (etharpFindEntry ipaddr flags s) := by
  rw [etharpFindEntry]
  cases hsweep : sweep s.arpTable ipaddr (List.finRange arpTableSize) .start with
  | inl i =>
    obtain ⟨hused, hip⟩ := sweep_inl hsweep
    exact .matched i hused hip
  | inr c =>
    obtain ⟨hnone, hseen⟩ := sweep_inr .start hsweep
    have habsent : Absent s ipaddr := fun i => hnone i (List.mem_finRange i)
    have hall (i : Slot) : i ∈ (List.finRange arpTableSize).reverse ++ [] := by simp
    simp only
    rcases hflags with rfl | rfl
    · rw [if_neg (by simp [etharpFlagTryHard, etharpFlagFindOnly])]
      cases hempty : c.empty with
      | some i => exact .fresh i habsent rfl (hseen.empty_some i hempty)
      | none =>
        obtain ⟨i, hrecycle, hspare⟩ := recycle_spare hseen hall hempty
        simp only [hrecycle]
        exact .recycled i habsent rfl (fun j => hseen.empty_none hempty j (hall j)) hspare
    · rw [if_pos (.inl (by decide))]
      exact .absent habsent rfl

theorem inputFlags_cases (netif : EtharpNetif) (bs : List U8) :
    inputFlags netif bs = etharpFlagTryHard ∨ inputFlags netif bs = etharpFlagFindOnly := by
  rw [inputFlags]
  split_ifs
  · exact .inl rfl
  · exact .inr rfl

end EnvirMonitor.Arp
