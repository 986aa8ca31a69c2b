import EnvirMonitor.Arp.Run

/-! The table in every run, and the entry that `etharp_output` tries first. -/

namespace EnvirMonitor.Arp
open Machine Lwip

section
variable {netif : EtharpNetif} {s : Etharp}

theorem queryEntry_ok {i : Slot} (hused : ((s.markPending i).arpTable i).state ≠ .empty)
    (ipaddr : U32) {q : Packet} {room : Room} (htaken : (q.rom || room.copy) = true) :
    (queryEntry netif ipaddr (some q) room s i).2 = .ok := by
  simp only [queryEntry, arpTable_ask]
  split_ifs with hres hpending
  · rfl
  · rfl
  · exact ((resolved_or_pending hused).elim hres hpending).elim

theorem Inv.query_ok (h : Sound netif s) {ipaddr : U32} (hunicast : nonUnicast netif ipaddr = false)
    {q : Packet} {room : Room} (htaken : (q.rom || room.copy) = true) :
    (etharpQuery netif ipaddr (some q) room s).2 = .ok := by
  have hr := etharpFindEntry_found ipaddr s (.inl rfl)
  rw [etharpQuery, hunicast]
  simp only [Bool.false_eq_true, if_false]
  rcases hfind : etharpFindEntry ipaddr etharpFlagTryHard s with ⟨s', _ | i⟩ <;> rw [hfind] at hr
  · cases hr with
    | absent habsent hflags => exact absurd hflags (by decide)
  · obtain ⟨-, -, hused⟩ := Inv.markPending (hr.inv h) (hr.returned h) hunicast
    exact queryEntry_ok hused ipaddr htaken

theorem cleanupEntry_self (i : Slot) (hnetif : (s.arpTable i).netif = (s.arpTable i).state.resolved) :
    (etharpCleanupEntry s i).arpTable i =
      if (s.arpTable i).state.resolved then emptyEntry else s.arpTable i := by
  rw [etharpCleanupEntry, hnetif]
  by_cases hres : (s.arpTable i).state.resolved = true
  · rw [if_pos ⟨used_of_resolved hres, hres⟩, if_pos hres, arpTable_free, Function.update_self]
  · rw [if_neg fun h => hres h.2, if_neg hres]

theorem cleanupEntry_ne {i j : Slot} (hj : j ≠ i) :
    (etharpCleanupEntry s i).arpTable j = s.arpTable j := by
  rw [etharpCleanupEntry]
  split_ifs
  · rw [arpTable_free, Function.update_of_ne hj]
  · rfl

/-- The interface is recorded in resolved entries only: `etharp_cleanup_netif` passes over the
pending ones and the packets that wait there. -/
theorem Inv.arpTable_cleanup (h : Sound netif s) (j : Slot) :
    (etharpCleanupNetif s).arpTable j =
      if (s.arpTable j).state.resolved then emptyEntry else s.arpTable j := by
  have hloop (slots : List Slot) (hn : slots.Nodup) (s : Etharp)
      (hnetif : ∀ i, (s.arpTable i).netif = (s.arpTable i).state.resolved) :
      (slots.foldl etharpCleanupEntry s).arpTable j =
        if j ∈ slots ∧ (s.arpTable j).state.resolved = true then emptyEntry else s.arpTable j := by
    induction slots generalizing s with
    | nil => rw [if_neg fun h => absurd h.1 List.not_mem_nil]; rfl
    | cons i slots ih =>
      obtain ⟨hi, hn⟩ := List.nodup_cons.mp hn
      have hnext (k : Slot) : ((etharpCleanupEntry s i).arpTable k).netif =
          ((etharpCleanupEntry s i).arpTable k).state.resolved := by
        by_cases hk : k = i
        · subst hk
          rw [cleanupEntry_self k (hnetif k)]
          split_ifs
          · rfl
          · exact hnetif k
        · rw [cleanupEntry_ne hk]
          exact hnetif k
      rw [List.foldl_cons, ih hn _ hnext]
      by_cases hj : j = i
      · subst hj
        rw [if_neg fun h => hi h.1, cleanupEntry_self j (hnetif j)]
        simp only [List.mem_cons, true_or, true_and]
      · simp only [cleanupEntry_ne hj, List.mem_cons, hj, false_or]
  rw [etharpCleanupNetif, hloop _ (List.nodup_finRange _) s fun i => (h.entry i).netif_eq]
  simp only [List.mem_finRange, true_and]

end

structure TableKept (netif : EtharpNetif) (s : Etharp) : Prop where
  distinct : ∀ i j, (s.arpTable i).state ≠ .empty → (s.arpTable j).state ≠ .empty →
    (s.arpTable i).ipaddr = (s.arpTable j).ipaddr → i = j
  unicast : ∀ i, (s.arpTable i).state ≠ .empty → nonUnicast netif (s.arpTable i).ipaddr = false
  waits : ∀ i, (s.arpTable i).q ≠ none → (s.arpTable i).state = .pending
  young : ∀ i, (s.arpTable i).ctime < arpMaxage ∧
    ((s.arpTable i).state = .pending → (s.arpTable i).ctime < arpMaxpending)
  takes : ∀ ipaddr q room, nonUnicast netif ipaddr = false → (q.rom || room.copy) = true →
    (etharpQuery netif ipaddr (some q) room s).2 = .ok
  cleanup : ∀ i, (etharpCleanupNetif s).arpTable i =
    if (s.arpTable i).state.resolved then emptyEntry else s.arpTable i

theorem arp_table_kept (netif : EtharpNetif) (ops : List ArpOp) :
    TableKept netif (runs netif .start ops) := by
  have h := sound_runs netif ops
  refine ⟨fun i j hi hj heq => h.distinct hi hj heq, fun i => (h.entry i).unicast, fun i hq => ?_,
    fun i => ⟨(h.entry i).age, (h.entry i).pendingAge⟩, fun _ _ _ hunicast => h.query_ok hunicast,
    h.arpTable_cleanup⟩
  obtain ⟨p, hp⟩ := Option.ne_none_iff_exists'.mp hq
  exact ((h.entry i).waits p hp).1

/-! ## The entry that a search obtains -/

section
variable {netif : EtharpNetif} {s : Etharp}

/-- What a search gets that may recycle: the entry of its address, and if there is none then an
empty entry, and if there is none then the entry that the table can best do without. -/
structure Obtains (ipaddr : U32) (s s' : Etharp) (i : Slot) : Prop where
  address : (s'.arpTable i).ipaddr = ipaddr
  others : ∀ j, j ≠ i → s'.arpTable j = s.arpTable j
  choice : s' = s ∧ (s.arpTable i).state ≠ .empty ∨
    Absent s ipaddr ∧ (s'.arpTable i).state = .empty ∧ ((s.arpTable i).state = .empty ∨
      (∀ j, (s.arpTable j).state ≠ .empty) ∧ ∀ j, (s.arpTable j).spare ≤ (s.arpTable i).spare)
  dropped : released s'.log ≠ released s.log →
    ∀ j, (s.arpTable j).state = .pending ∧ (s.arpTable j).q ≠ none

theorem pending_of_rank {e : EtharpEntry} (hused : e.state ≠ .empty) (h : e.rank = 0) :
    e.state = .pending ∧ e.q ≠ none := by
  rcases resolved_or_pending hused with hres | hpending
  · rw [rank_of_resolved hres] at h
    nomatch h
  · refine ⟨hpending, fun hq => ?_⟩
    rw [rank_of_pending hpending, if_pos hq] at h
    nomatch h

theorem Inv.recycled (h : Sound netif s) {ipaddr : U32} {i : Slot}
    (hfull : ∀ j, (s.arpTable j).state ≠ .empty)
    (hspare : ∀ j, (s.arpTable j).spare ≤ (s.arpTable i).spare)
    (hdropped : released ((etharpFreeEntry i s).create i ipaddr).log ≠ released s.log) (j : Slot) :
    (s.arpTable j).state = .pending ∧ (s.arpTable j).q ≠ none := by
  cases hq : (s.arpTable i).q with
  | none =>
    have hlog : (etharpFreeEntry i s).log = s.log := by
      rw [etharpFreeEntry, hq]
      rfl
    exact absurd (congrArg released hlog) hdropped
  | some p =>
    have hzero : (s.arpTable i).rank = 0 := by
      rw [rank_of_pending ((h.entry i).waits p hq).1, hq]
      rfl
    refine pending_of_rank (hfull j) ?_
    rcases Prod.Lex.toLex_le_toLex.mp (hspare j) with hlt | ⟨heq, -⟩
    · rw [hzero] at hlt
      exact absurd hlt (Nat.not_lt_zero _)
    · exact heq.trans hzero

end

/-- In every run a search that may recycle obtains an entry, and a packet is lost for it only when
packets wait in all entries. -/
theorem find_entry_obtains (netif : EtharpNetif) (ops : List ArpOp) (ipaddr : U32) :
    ∃ s' i, etharpFindEntry ipaddr etharpFlagTryHard (runs netif .start ops) = (s', some i) ∧
      Obtains ipaddr (runs netif .start ops) s' i := by
  have h := sound_runs netif ops
  generalize runs netif .start ops = s at h
  have hr := etharpFindEntry_found ipaddr s (.inl rfl)
  generalize etharpFindEntry ipaddr etharpFlagTryHard s = r at hr
  have hstate (s : Etharp) (i : Slot) :
      ((s.create i ipaddr).arpTable i).state = (s.arpTable i).state := by
    rw [Etharp.create, setEntry_self]
  have hreturned {s' : Etharp} {i : Slot} (hr : Found ipaddr etharpFlagTryHard s (s', some i)) :=
    (hr.returned h).ipaddr_eq
  cases hr with
  | matched i hused hip =>
    exact ⟨s, i, rfl, hip, fun _ _ => rfl, .inl ⟨rfl, hused⟩, fun hne => absurd rfl hne⟩
  | absent habsent hflags => exact absurd hflags (by decide)
  | fresh i habsent hflags hempty =>
    exact ⟨_, i, rfl, hreturned (.fresh i habsent hflags hempty), fun j hj => setEntry_ne s hj _,
      .inr ⟨habsent, (hstate s i).trans hempty, .inl hempty⟩, fun hne => absurd rfl hne⟩
  | recycled i habsent hflags hfull hspare =>
    refine ⟨_, i, rfl, hreturned (.recycled i habsent hflags hfull hspare), fun j hj => ?_,
      .inr ⟨habsent, ?_, .inr ⟨hfull, hspare⟩⟩, h.recycled hfull hspare⟩
    · rw [Etharp.create, setEntry_ne _ hj, arpTable_free, Function.update_of_ne hj]
    · rw [hstate, arpTable_free, Function.update_self]
      rfl

/-! ## The cached entry -/

def Etharp.withCache (s : Etharp) (c : Slot) : Etharp := { s with cachedEntry := c }

section
variable {netif : EtharpNetif} {s : Etharp} {ipaddr : U32} {c : Slot}

theorem free_withCache (i : Slot) :
    etharpFreeEntry i (s.withCache c) = (etharpFreeEntry i s).withCache c := by
  simp only [etharpFreeEntry, Etharp.withCache]
  cases (s.arpTable i).q <;> rfl

theorem find_withCache (ipaddr : U32) (flags : U8) :
    etharpFindEntry ipaddr flags (s.withCache c) =
      ((etharpFindEntry ipaddr flags s).1.withCache c, (etharpFindEntry ipaddr flags s).2) := by
  have htable : (s.withCache c).arpTable = s.arpTable := rfl
  rw [etharpFindEntry, etharpFindEntry, htable]
  cases sweep s.arpTable ipaddr (List.finRange arpTableSize) .start with
  | inl i => rfl
  | inr d =>
    simp only
    split_ifs
    · rfl
    · cases d.empty with
      | some i => rfl
      | none =>
        cases d.recycle with
        | some i =>
          simp only [free_withCache]
          rfl
        | none => rfl

theorem markPending_withCache (i : Slot) :
    (s.withCache c).markPending i = (s.markPending i).withCache c := by
  rw [Etharp.markPending, Etharp.markPending]
  by_cases hempty : (s.arpTable i).state = .empty
  · rw [if_pos hempty]
    exact if_pos hempty
  · rw [if_neg hempty]
    exact if_neg hempty

theorem ask_withCache (ipaddr : U32) (q : Option Packet) (room : Room) (i : Slot) :
    askEntry netif ipaddr q room (s.withCache c) i =
      ((askEntry netif ipaddr q room s i).1.withCache c, (askEntry netif ipaddr q room s i).2) := by
  rw [askEntry, askEntry]
  by_cases hasks : (s.arpTable i).state = .pending ∨ q = none
  · rw [if_pos hasks]
    refine (if_pos hasks).trans ?_
    cases hroom : room.request <;> rfl
  · rw [if_neg hasks]
    exact if_neg hasks

theorem queue_withCache (i : Slot) (p : List U8) :
    (s.withCache c).queue i ipaddr p = (s.queue i ipaddr p).withCache c := by
  simp only [Etharp.queue, Etharp.withCache]
  cases (s.arpTable i).q <;> rfl

def Agree (r r' : Etharp × ErrT) : Prop :=
  r.1.arpTable = r'.1.arpTable ∧ r.1.log = r'.1.log ∧ r.2 = r'.2

theorem queryEntry_agree (q : Option Packet) (room : Room) (i : Slot) :
    Agree (queryEntry netif ipaddr q room (s.withCache c) i) (queryEntry netif ipaddr q room s i) := by
  simp only [queryEntry, markPending_withCache, ask_withCache]
  cases q with
  | none => exact ⟨rfl, rfl, rfl⟩
  | some q =>
    set asked := askEntry netif ipaddr (some q) room (s.markPending i) i
    have htable : (asked.1.withCache c).arpTable = asked.1.arpTable := rfl
    simp only [htable, queue_withCache]
    split_ifs
    all_goals exact ⟨rfl, rfl, rfl⟩

theorem query_agree (q : Option Packet) (room : Room) :
    Agree (etharpQuery netif ipaddr q room (s.withCache c)) (etharpQuery netif ipaddr q room s) := by
  rw [etharpQuery, etharpQuery, find_withCache]
  split_ifs
  · exact ⟨rfl, rfl, rfl⟩
  · rcases etharpFindEntry ipaddr etharpFlagTryHard s with ⟨s', _ | i⟩
    · exact ⟨rfl, rfl, rfl⟩
    · exact queryEntry_agree q room i

theorem outputToArpIndex_agree (q : Packet) (dstAddr : U32) (room : Room) (i : Slot) :
    Agree (etharpOutputToArpIndex netif q dstAddr i room (s.withCache c))
      (etharpOutputToArpIndex netif q dstAddr i room s) := by
  rw [etharpOutputToArpIndex, etharpOutputToArpIndex]
  have hentry : (s.withCache c).arpTable i = s.arpTable i := rfl
  rw [hentry]
  split_ifs
  · cases hroom : room.request <;> exact ⟨rfl, rfl, rfl⟩
  · exact ⟨rfl, rfl, rfl⟩

theorem Inv.matches_unique (h : Sound netif s) {dstAddr : U32} {i j : Slot}
    (hi : s.matchesStable dstAddr i = true) (hj : s.matchesStable dstAddr j = true) : i = j := by
  obtain ⟨hires, hi⟩ := Bool.and_eq_true_iff.mp hi
  obtain ⟨hjres, hj⟩ := Bool.and_eq_true_iff.mp hj
  exact h.distinct (used_of_resolved hires) (used_of_resolved hjres)
    ((beq_iff_eq.mp hi).symm.trans (beq_iff_eq.mp hj))

def outputBySearch (netif : EtharpNetif) (q : Packet) (dstAddr : U32) (room : Room) (s : Etharp) :
    Etharp × ErrT :=
  match (List.finRange arpTableSize).find? (s.matchesStable dstAddr) with
  | some i => etharpOutputToArpIndex netif q dstAddr i room s
  | none => etharpQuery netif dstAddr (some q) room s

theorem Inv.output_agree (h : Sound netif s) {q : Packet} {dstAddr : U32} {room : Room}
    (hroom : room.header = true) (hbroadcast : ipAddrIsbroadcast ipaddr netif.toNetif = false)
    (hmulticast : ipAddrIsmulticast ipaddr = false) (hhop : nextHop netif ipaddr = some dstAddr) :
    Agree (etharpOutput netif q ipaddr room (s.withCache c)) (outputBySearch netif q dstAddr room s) := by
  have hmatches : (s.withCache c).matchesStable dstAddr = s.matchesStable dstAddr := rfl
  rw [etharpOutput, hroom, hbroadcast, hmulticast, hhop, outputBySearch]
  simp only [Bool.not_true, Bool.false_eq_true, if_false, hmatches]
  split_ifs with hcached
  · have hfind : (List.finRange arpTableSize).find? (s.matchesStable dstAddr) = some c := by
      cases hres : (List.finRange arpTableSize).find? (s.matchesStable dstAddr) with
      | none => exact absurd hcached (List.find?_eq_none.mp hres c (List.mem_finRange c))
      | some i => exact congrArg some (h.matches_unique (List.find?_some hres) hcached)
    rw [hfind]
    exact outputToArpIndex_agree q dstAddr room c
  · cases (List.finRange arpTableSize).find? (s.matchesStable dstAddr) with
    | none => exact query_agree (some q) room
    | some i =>
      exact @outputToArpIndex_agree netif s i q dstAddr room i

end

/-- In every run the search finds the entry that `etharp_cached_entry` would have hit, so that the
short way sends the same. -/
theorem cached_entry_agrees (netif : EtharpNetif) (ops : List ArpOp) (c : Slot) {q : Packet}
    {ipaddr dstAddr : U32} {room : Room} (hroom : room.header = true)
    (hbroadcast : ipAddrIsbroadcast ipaddr netif.toNetif = false)
    (hmulticast : ipAddrIsmulticast ipaddr = false) (hhop : nextHop netif ipaddr = some dstAddr) :
    Agree (etharpOutput netif q ipaddr room ((runs netif .start ops).withCache c))
      (outputBySearch netif q dstAddr room (runs netif .start ops)) :=
  (sound_runs netif ops).output_agree hroom hbroadcast hmulticast hhop

/-- The interface 192.168.1.30, and a host that speaks to it. -/
def sampleStation : EtharpNetif where
  ipAddr := 0x1E01A8C0
  netmask := 0x00FFFFFF
  broadcast := true
  up := true
  mtu := 1500
  gw := 0x0101A8C0
  hwaddr := ⟨0x02, 0, 0, 0, 0, 0x1E⟩

def sampleHost : EtharpNetif :=
  { sampleStation with ipAddr := 0x0201A8C0, hwaddr := ⟨0x02, 0, 0, 0, 0, 0x02⟩ }

def sampleRoom : Room := ⟨true, true, true⟩

/-- The station hears the reply of the host, which resolves entry 0. -/
def sampleCalls : List ArpOp :=
  [.query sampleHost.ipAddr none sampleRoom,
    .input [⟨0, replyPacket sampleHost (requestPacket sampleStation sampleHost.ipAddr)⟩]]

theorem cached_entry_agrees_sample :
    (runs sampleStation .start sampleCalls).matchesStable sampleHost.ipAddr 0 = true ∧
      Agree (etharpOutput sampleStation ⟨[1, 2], false⟩ sampleHost.ipAddr sampleRoom
          ((runs sampleStation .start sampleCalls).withCache 0))
        (outputBySearch sampleStation ⟨[1, 2], false⟩ sampleHost.ipAddr sampleRoom
          (runs sampleStation .start sampleCalls)) :=
  ⟨by decide, cached_entry_agrees sampleStation sampleCalls 0 rfl rfl rfl rfl⟩

end EnvirMonitor.Arp
