import EnvirMonitor.Arp.Events
import EnvirMonitor.Arp.Operations

/-! Runs of the ARP table: any packets in and out, any losses of memory, and the timer. -/

namespace EnvirMonitor.Arp
open Machine Lwip

inductive ArpOp
  | tmr
  | input (p : List Piece)
  | output (q : Packet) (ipaddr : U32) (room : Room)
  | query (ipaddr : U32) (q : Option Packet) (room : Room)
  /-- `etharp_gratuitous`, when the interface or its link goes up -/
  | gratuitous (room : Bool)
  /-- `etharp_cleanup_netif`, when the interface goes down -/
  | cleanup

def ArpOp.run (netif : EtharpNetif) (s : Etharp) : ArpOp → Etharp
  | tmr => etharpTmr s
  | input p => (ethernetInput netif p s).1
  | output q ipaddr room => (etharpOutput netif q ipaddr room s).1
  | query ipaddr q room => (etharpQuery netif ipaddr q room s).1
  | gratuitous room => (etharpRequest netif netif.ipAddr room s).1
  | cleanup => etharpCleanupNetif s

/-- The call asks for the packet to be sent to the station of the address. -/
def ArpOp.Aims (netif : EtharpNetif) (a : U32) (p : List U8) : ArpOp → Prop
  | output q ipaddr _ => nextHop netif ipaddr = some a ∧ p = q.data
  | query ipaddr q _ => a = ipaddr ∧ ∃ q', q = some q' ∧ p = q'.data
  | _ => False

def runs (netif : EtharpNetif) (s : Etharp) (ops : List ArpOp) : Etharp := ops.foldl (ArpOp.run netif) s

section
variable {netif : EtharpNetif} {s : Etharp}

theorem Inv.op (h : Sound netif s) (op : ArpOp) : Sound netif (op.run netif s) := by
  cases op with
  | tmr => exact h.tmr
  | input p => exact h.ethernetInput p
  | output q ipaddr room => exact h.output q ipaddr room
  | query ipaddr q room => exact h.query ipaddr q room
  | gratuitous room => exact h.request _ _
  | cleanup => exact h.cleanup

theorem Inv.runs (h : Sound netif s) (ops : List ArpOp) : Sound netif (runs netif s ops) := by
  induction ops generalizing s with
  | nil => exact h
  | cons op ops ih => exact ih (h.op op)

theorem sound_runs (netif : EtharpNetif) (ops : List ArpOp) : Sound netif (runs netif .start ops) :=
  (sound_start netif).runs ops

/-! ## The events of a run -/

def ticks (log : List ArpEvent) : ℕ := log.count .tick

theorem ticks_append (log log' : List ArpEvent) : ticks (log ++ log') = ticks log + ticks log' :=
  List.count_append

theorem ticks_local {new : List ArpEvent} (h : ∀ ev ∈ new, ev ≠ .tick) : ticks new = 0 :=
  List.count_eq_zero.mpr fun hmem => h _ hmem rfl

def ArpOp.isTmr : ArpOp → Bool
  | tmr => true
  | _ => false

/-- The packets that were sent with an entry or queued, each with the address that it is for. -/
def taken (log : List ArpEvent) : List (U32 × List U8) :=
  log.filterMap fun
    | .pass a _ p => some (a, p)
    | .hold a p => some (a, p)
    | _ => none

theorem taken_append (log log' : List ArpEvent) : taken (log ++ log') = taken log ++ taken log' :=
  List.filterMap_append

theorem mem_taken {log : List ArpEvent} {x : U32 × List U8} :
    x ∈ taken log ↔ (∃ m, .pass x.1 m x.2 ∈ log) ∨ .hold x.1 x.2 ∈ log := by
  rw [taken, List.mem_filterMap]
  constructor
  · rintro ⟨ev, hev, hx⟩
    cases ev with
    | pass a m p =>
      obtain rfl := Option.some.inj hx
      exact .inl ⟨m, hev⟩
    | hold a p =>
      obtain rfl := Option.some.inj hx
      exact .inr hev
    | _ => nomatch hx
  · rintro (⟨m, hev⟩ | hev)
    · exact ⟨_, hev, rfl⟩
    · exact ⟨_, hev, rfl⟩

section
variable {aims : U32 → List U8 → Prop}

theorem local_ne_tick {ev : ArpEvent} (h : ev.Local netif aims) : ev ≠ .tick := fun heq => by
  rw [heq] at h
  exact h

theorem aims_of_taken {new : List ArpEvent} (h : ∀ ev ∈ new, ev.Local netif aims)
    {x : U32 × List U8} (hx : x ∈ taken new) : aims x.1 x.2 := by
  rcases mem_taken.mp hx with ⟨m, hev⟩ | hev
  · exact h _ hev
  · exact h _ hev

end

structure OpLog (netif : EtharpNetif) (op : ArpOp) (new : List ArpEvent) : Prop where
  ticks : ticks new = if op.isTmr then 1 else 0
  aims : ∀ x ∈ taken new, op.Aims netif x.1 x.2

theorem op_log (netif : EtharpNetif) (s : Etharp) (op : ArpOp) :
    ∃ new, (op.run netif s).log = new ++ s.log ∧ OpLog netif op new := by
  have hquiet {s' : Etharp} (htmr : op.isTmr = false)
      (h : Extends (ArpEvent.Local netif fun a p => op.Aims netif a p) s s') :
      ∃ new, s'.log = new ++ s.log ∧ OpLog netif op new := by
    obtain ⟨new, hlog, hnew⟩ := h
    refine ⟨new, hlog, ?_, fun x => aims_of_taken hnew⟩
    rw [ticks_local fun ev hev => local_ne_tick (hnew ev hev), htmr]
    rfl
  cases op with
  | tmr =>
    obtain ⟨new, hlog, hnew⟩ := Extends.foldl (extends_tmrEntry netif fun _ _ => False)
      (List.finRange arpTableSize) (s.emit .tick)
    refine ⟨new ++ [.tick], by rw [List.append_assoc]; exact hlog, ?_, fun x hx => ?_⟩
    · rw [ticks_append, ticks_local fun ev hev => local_ne_tick (hnew ev hev)]
      rfl
    · rw [taken_append] at hx
      exact aims_of_taken hnew ((List.mem_append.mp hx).resolve_right List.not_mem_nil)
  | input p =>
    obtain ⟨new, hlog, hnew⟩ := extends_ethernetInput netif p s
    refine ⟨new, hlog, ticks_local fun ev hev => ?_, fun x hx => ?_⟩
    · rcases hnew ev hev with hlocal | ⟨q, rest, -, -, -, rfl | rfl⟩
      · exact local_ne_tick hlocal
      · nofun
      · nofun
    · rcases mem_taken.mp hx with ⟨m, hev⟩ | hev
      all_goals
        rcases hnew _ hev with hlocal | ⟨q, rest, -, -, -, heq | heq⟩
        · exact hlocal
        · nomatch heq
        · nomatch heq
  | output q ipaddr room =>
    exact hquiet rfl (extends_output netif _ (fun a ha => ⟨ha, rfl⟩) room s)
  | query ipaddr q room =>
    exact hquiet rfl (extends_query netif _ (fun q' hq' => ⟨rfl, q', hq', rfl⟩) room s)
  | gratuitous room => exact hquiet rfl (extends_request netif _ _ room s)
  | cleanup => exact hquiet rfl (extends_cleanup netif _ s)

theorem runs_log (netif : EtharpNetif) (s : Etharp) (ops : List ArpOp) :
    ∃ new, (runs netif s ops).log = new ++ s.log ∧ ticks new = ops.countP ArpOp.isTmr ∧
      ∀ x ∈ taken new, ∃ op ∈ ops, op.Aims netif x.1 x.2 := by
  induction ops generalizing s with
  | nil => exact ⟨[], rfl, rfl, fun x hx => absurd hx List.not_mem_nil⟩
  | cons op ops ih =>
    obtain ⟨new, hlog, hnew⟩ := op_log netif s op
    obtain ⟨new', hlog', hticks', haims'⟩ := ih (op.run netif s)
    refine ⟨new' ++ new, ?_, ?_, fun x hx => ?_⟩
    · rw [List.append_assoc, ← hlog]
      exact hlog'
    · rw [ticks_append, hnew.ticks, hticks', List.countP_cons]
    · rw [taken_append] at hx
      rcases List.mem_append.mp hx with hx | hx
      · obtain ⟨op', hop', haims⟩ := haims' x hx
        exact ⟨op', List.mem_cons_of_mem _ hop', haims⟩
      · exact ⟨op, List.mem_cons_self, hnew.aims x hx⟩

theorem Inv.taken_of_flush (h : Sound netif s) {a : U32} {m : EthAddr} {p : List U8}
    (hev : .flush a m p ∈ s.log) : (a, p) ∈ taken s.log := by
  have hreleased : (a, p) ∈ released s.log := List.mem_filterMap.mpr ⟨_, hev, rfl⟩
  have hsettled := h.settled (a, p)
  have hholds : (a, p) ∈ holds s.log := List.one_le_count_iff.mp
    ((List.one_le_count_iff.mpr hreleased).trans (by omega))
  obtain ⟨ev, hev, hx⟩ := List.mem_filterMap.mp hholds
  refine List.mem_filterMap.mpr ⟨ev, hev, ?_⟩
  cases ev with
  | hold b p' => exact hx
  | _ => nomatch hx

theorem aimed_runs (netif : EtharpNetif) (ops : List ArpOp) {a : U32} {m : EthAddr} {p : List U8}
    (hev : .pass a m p ∈ (runs netif .start ops).log ∨ .flush a m p ∈ (runs netif .start ops).log) :
    ∃ op ∈ ops, op.Aims netif a p := by
  obtain ⟨new, hlog, -, haims⟩ := runs_log netif .start ops
  have hnew : (runs netif .start ops).log = new := hlog.trans (List.append_nil new)
  have htaken : (a, p) ∈ taken (runs netif .start ops).log :=
    hev.elim (fun hev => mem_taken.mpr (.inl ⟨m, hev⟩)) (sound_runs netif ops).taken_of_flush
  rw [hnew] at htaken
  exact haims _ htaken

/-- In every run, whatever is sent with an entry was meant for the next hop `a`, and goes to the
hardware address that was heard last for it, fewer than 240 calls of `etharp_tmr` before. -/
structure SentRight (netif : EtharpNetif) (ops : List ArpOp) : Prop where
  truthful : Truthful (runs netif .start ops).log
  aims : ∀ a m p, .pass a m p ∈ (runs netif .start ops).log ∨
    .flush a m p ∈ (runs netif .start ops).log → ∃ op ∈ ops, op.Aims netif a p

theorem arp_truthful (netif : EtharpNetif) (ops : List ArpOp) : SentRight netif ops :=
  ⟨(sound_runs netif ops).truthful, fun _ _ _ => aimed_runs netif ops⟩

/-! ## The packets that wait -/

/-- A packet that waits either was queued by the newer events or saw all their calls of the timer. -/
theorem ticks_le_of_heldFor {x : U32 × List U8} {new old : List ArpEvent} {k : ℕ}
    (h : heldFor x (new ++ old) = some k) (hx : x ∉ holds new) : ticks new ≤ k := by
  induction new generalizing k with
  | nil => exact Nat.zero_le k
  | cons ev new ih =>
    cases ev with
    | hold a p =>
      have hne : (a, p) ≠ x := fun heq => hx (heq ▸ List.mem_cons_self)
      rw [List.cons_append, heldFor, if_neg hne] at h
      exact ih h fun hmem => hx (List.mem_cons_of_mem _ hmem)
    | tick =>
      obtain ⟨j, hj, rfl⟩ := Option.map_eq_some_iff.mp h
      have hcons : ticks (.tick :: new) = ticks new + 1 := List.count_cons_self
      rw [hcons]
      exact Nat.succ_le_succ (ih hj hx)
    | _ => exact ih h hx

theorem nodup_queued (h : Sound netif s) : (queued s.arpTable).Nodup := by
  refine List.nodup_flatMap.mpr ⟨fun i _ => ?_, (List.nodup_finRange _).imp fun {i j} hij => ?_⟩
  · rw [entryHeld]
    cases (s.arpTable i).q with
    | none => exact List.nodup_nil
    | some p => exact List.nodup_singleton _
  · intro x hi hj
    simp only [entryHeld, Option.mem_toList, Option.map_eq_some_iff] at hi hj
    obtain ⟨p, hp, rfl⟩ := hi
    obtain ⟨p', hp', heq⟩ := hj
    have hused {k : Slot} {p : List U8} (hq : (s.arpTable k).q = some p) :
        (s.arpTable k).state ≠ .empty := by
      rw [((h.entry k).waits p hq).1]
      decide
    exact hij (h.distinct (hused hp) (hused hp') (congrArg Prod.fst heq).symm)

/-- Two calls of the timer later, what waits was queued in the meantime. -/
theorem count_queued_le (h : Sound netif s) {new old : List ArpEvent} (hlog : s.log = new ++ old)
    (hticks : 2 ≤ ticks new) (x : U32 × List U8) :
    (queued s.arpTable).count x ≤ (holds new).count x := by
  by_cases hx : x ∈ queued s.arpTable
  · obtain ⟨i, -, hi⟩ := List.mem_flatMap.mp hx
    simp only [entryHeld, Option.mem_toList, Option.map_eq_some_iff] at hi
    obtain ⟨p, hp, rfl⟩ := hi
    obtain ⟨hpending, k, hk, hheld⟩ := (h.entry i).waits p hp
    have hyoung := (h.entry i).pendingAge hpending
    have hnew : ((s.arpTable i).ipaddr, p) ∈ holds new := by
      by_contra hnot
      rw [hlog] at hheld
      have := ticks_le_of_heldFor hheld hnot
      omega
    exact (List.nodup_iff_count_le_one.mp (nodup_queued h) _).trans (List.one_le_count_iff.mpr hnew)
  · rw [List.count_eq_zero_of_not_mem hx]
    exact Nat.zero_le _

end

/-- A state after `ops` and then `later`: every packet that was queued has been sent or freed or
waits in the table, and two calls of the timer leave none of the earlier ones waiting. -/
structure PacketsSettled (netif : EtharpNetif) (ops later : List ArpOp) : Prop where
  exactly : ∀ x, (holds (runs netif .start ops).log).count x =
    (released (runs netif .start ops).log).count x +
      (queued (runs netif .start ops).arpTable).count x
  once : (queued (runs netif .start ops).arpTable).Nodup
  soon : 2 ≤ later.countP ArpOp.isTmr → ∀ x, (holds (runs netif .start ops).log).count x ≤
    (released (runs netif .start (ops ++ later)).log).count x

theorem arp_packets_settled (netif : EtharpNetif) (ops later : List ArpOp) :
    PacketsSettled netif ops later := by
  have hsound := sound_runs netif ops
  refine ⟨hsound.settled, nodup_queued hsound, fun htwo x => ?_⟩
  have hruns : runs netif .start (ops ++ later) = runs netif (runs netif .start ops) later :=
    List.foldl_append
  have hlater := sound_runs netif (ops ++ later)
  obtain ⟨new, hlog, hticks, -⟩ := runs_log netif (runs netif .start ops) later
  rw [← hruns] at hlog
  have hle := count_queued_le hlater hlog (hticks ▸ htwo) x
  have hsettled := hlater.settled x
  have hsplit : (holds (runs netif .start (ops ++ later)).log).count x =
      (holds new).count x + (holds (runs netif .start ops).log).count x := by
    rw [hlog, holds_append, List.count_append]
  omega

end EnvirMonitor.Arp
