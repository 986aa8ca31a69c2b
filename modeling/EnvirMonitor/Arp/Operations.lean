import EnvirMonitor.Arp.Find

/-! Every function of `etharp.c` keeps the invariant of the table. -/

namespace EnvirMonitor.Arp
open Machine Lwip

/-- The invariant between two calls. -/
abbrev Sound (netif : EtharpNetif) (s : Etharp) : Prop := Inv netif (fun _ => False) (fun _ => 0) s

section
variable {netif : EtharpNetif} {off : U32 → Prop} {late : Slot → ℕ} {s : Etharp} {ipaddr : U32}

theorem heardOf_free (a : U32) (i : Slot) (s : Etharp) :
    heardOf a (etharpFreeEntry i s).log = heardOf a s.log := by
  rw [etharpFreeEntry]
  cases (s.arpTable i).q <;> rfl

/-! ## `etharp_find_entry` -/

theorem Inv.create (h : Inv netif off late s) {i : Slot} (hempty : (s.arpTable i).state = .empty)
    (ipaddr : U32) : Inv netif off late (s.create i ipaddr) := by
  have hentry := h.entry i
  have hq := hentry.q_eq_none (by rw [hempty]; decide)
  refine h.set i (fun _ _ => rfl) ?_ (by simp only [entryHeld, hq]; rfl) fun hne => absurd hempty hne
  exact {
    unicast := fun hne => absurd hempty hne
    known := fun hres => absurd hres (by rw [hempty]; decide)
    waits := fun p hp => absurd (hq.symm.trans hp) (Option.some_ne_none p).symm
    netif_eq := hentry.netif_eq
    age := Nat.zero_lt_succ _
    pendingAge := fun hp => absurd (hempty.symm.trans hp) (by decide) }

theorem Found.inv {flags : U8} {r : Etharp × Option Slot} (hr : Found ipaddr flags s r)
    (h : Inv netif off late s) : Inv netif off late r.1 := by
  cases hr with
  | matched i hused hip => exact h
  | absent habsent hflags => exact h
  | fresh i habsent hflags hempty => exact h.create hempty ipaddr
  | recycled i habsent hflags hfull hspare =>
    refine (h.free i fun _ _ => rfl).create ?_ ipaddr
    rw [arpTable_free, Function.update_self]
    rfl

theorem Found.heardOf {flags : U8} {r : Etharp × Option Slot} (hr : Found ipaddr flags s r) (a : U32) :
    heardOf a r.1.log = heardOf a s.log := by
  cases hr with
  | matched i hused hip => rfl
  | absent habsent hflags => rfl
  | fresh i habsent hflags hempty => rfl
  | recycled i habsent hflags hfull hspare => exact heardOf_free a i s

/-- The entry that is returned: in use with the address, or empty and the only one with it. -/
structure Returned (ipaddr : U32) (s : Etharp) (i : Slot) : Prop where
  ipaddr_eq : (s.arpTable i).ipaddr = ipaddr
  others : ∀ j, j ≠ i → (s.arpTable j).state ≠ .empty → (s.arpTable j).ipaddr ≠ ipaddr
  young : (s.arpTable i).state = .empty → (s.arpTable i).ctime = 0 ∧ (s.arpTable i).q = none

theorem Returned.create (h : Inv netif off late s) {i : Slot}
    (hempty : (s.arpTable i).state = .empty)
    (hothers : ∀ j, j ≠ i → (s.arpTable j).state ≠ .empty → (s.arpTable j).ipaddr ≠ ipaddr) :
    Returned ipaddr (s.create i ipaddr) i where
  ipaddr_eq := by rw [Etharp.create, setEntry_self]
  others := fun j hj => by
    rw [Etharp.create, setEntry_ne s hj]
    exact hothers j hj
  young := fun _ => by
    rw [Etharp.create, setEntry_self]
    exact ⟨rfl, (h.entry i).q_eq_none (by rw [hempty]; nofun)⟩

theorem Found.returned {flags : U8} {s' : Etharp} {i : Slot}
    (hr : Found ipaddr flags s (s', some i)) (h : Inv netif off late s) :
    Returned ipaddr s' i := by
  cases hr with
  | matched _ hused hip =>
    refine ⟨hip, fun j hj hused' => ?_, fun hempty => absurd hempty hused⟩
    rw [← hip]
    exact h.key hused j hj hused'
  | fresh _ habsent hflags hempty => exact .create h hempty fun j _ => habsent j
  | recycled _ habsent hflags hfull hspare =>
    refine .create (h.free i fun _ _ => rfl) ?_ fun j hj => ?_
    · rw [arpTable_free, Function.update_self]
      rfl
    · rw [arpTable_free, Function.update_of_ne hj]
      exact habsent j

/-! ## `etharp_update_arp_entry` -/

theorem Inv.hear (h : Sound netif s) (a : U32) (m : EthAddr) :
    Inv netif (· = a) (fun _ => 0) (s.emit (.heard a m)) where
  distinct := h.distinct
  entry := fun i => {
    unicast := (h.entry i).unicast
    known := fun hres hoff => by
      simp only [Etharp.emit, Arp.heardOf]
      rw [if_neg fun heq => hoff heq.symm]
      exact (h.entry i).known hres id
    waits := (h.entry i).waits
    netif_eq := (h.entry i).netif_eq
    age := (h.entry i).age
    pendingAge := (h.entry i).pendingAge }
  truthful := h.truthful
  settled := h.settled

theorem Inv.settle (h : Inv netif (· = ipaddr) late s)
    (hknown : ∀ i, (s.arpTable i).state.resolved = true → (s.arpTable i).ipaddr = ipaddr →
      heardOf ipaddr s.log = some ((s.arpTable i).ethaddr, (s.arpTable i).ctime.toNat + late i)) :
    Inv netif (fun _ => False) late s where
  distinct := h.distinct
  entry := fun i => {
    unicast := (h.entry i).unicast
    known := fun hres _ => by
      by_cases hip : (s.arpTable i).ipaddr = ipaddr
      · rw [hip]
        exact hknown i hres hip
      · exact (h.entry i).known hres hip
    waits := (h.entry i).waits
    netif_eq := (h.entry i).netif_eq
    age := (h.entry i).age
    pendingAge := (h.entry i).pendingAge }
  truthful := h.truthful
  settled := h.settled

theorem used_of_resolved {e : EtharpEntry} (h : e.state.resolved = true) : e.state ≠ .empty := by
  intro hempty
  rw [hempty] at h
  nomatch h

def learned (e : EtharpEntry) (ethaddr : EthAddr) : EtharpEntry :=
  { e with state := .stable, netif := true, ethaddr := ethaddr, ctime := 0, q := none }

theorem Inv.learn (h : Inv netif (· = ipaddr) (fun _ => 0) s) {ethaddr : EthAddr} {i : Slot}
    (hr : Returned ipaddr s i) (hheard : heardOf ipaddr s.log = some (ethaddr, 0))
    (hunicast : nonUnicast netif ipaddr = false) :
    Sound netif (match (s.arpTable i).q with
      | some p => (s.setEntry i (learned (s.arpTable i) ethaddr)).emit
          (.flush (s.arpTable i).ipaddr ethaddr p)
      | none => s.setEntry i (learned (s.arpTable i) ethaddr)) := by
  have hip := hr.ipaddr_eq
  have hkey : (learned (s.arpTable i) ethaddr).state ≠ .empty → ∀ j, j ≠ i →
      (s.arpTable j).state ≠ .empty →
        (s.arpTable j).ipaddr ≠ (learned (s.arpTable i) ethaddr).ipaddr := by
    intro _ j hj hused
    rw [learned, hip]
    exact hr.others j hj hused
  have hlearned (log : List ArpEvent) :
      EntryInv netif (· = ipaddr) 0 log (learned (s.arpTable i) ethaddr) := {
    unicast := fun _ => by
      rw [learned, hip]
      exact hunicast
    known := fun _ hoff => absurd hip hoff
    waits := fun p hp => nomatch hp
    netif_eq := rfl
    age := Nat.zero_lt_succ _
    pendingAge := nofun }
  have hknown (j : Slot)
      (hres : (Function.update s.arpTable i (learned (s.arpTable i) ethaddr) j).state.resolved = true)
      (hj : (Function.update s.arpTable i (learned (s.arpTable i) ethaddr) j).ipaddr = ipaddr) :
      some (ethaddr, 0) = some
        ((Function.update s.arpTable i (learned (s.arpTable i) ethaddr) j).ethaddr,
          (Function.update s.arpTable i (learned (s.arpTable i) ethaddr) j).ctime.toNat + 0) := by
    by_cases hji : j = i
    · rw [hji, Function.update_self]
      rfl
    · rw [Function.update_of_ne hji] at hres hj
      exact absurd hj (hr.others j hji (used_of_resolved hres))
  cases hq : (s.arpTable i).q with
  | none =>
    refine Inv.settle ?_ fun j hres hj => hheard.trans (hknown j hres hj)
    refine h.set i (fun _ _ => rfl) (hlearned _) ?_ hkey
    rw [entryHeld, entryHeld, hq]
    rfl
  | some p =>
    refine Inv.settle ?_ fun j hres hj => hheard.trans (hknown j hres hj)
    refine h.change i (.flush (s.arpTable i).ipaddr ethaddr p :: s.log) (fun _ _ => rfl)
      (fun _ _ hf => hf.silent trivial) (hlearned _) hkey ?_ (fun x => ?_) s.cachedEntry
    · rw [hip]
      exact ⟨⟨0, by decide, hheard⟩, h.truthful⟩
    · have hheld : entryHeld (s.arpTable i) = [((s.arpTable i).ipaddr, p)] := by
        rw [entryHeld, hq]
        rfl
      have hnew : entryHeld (learned (s.arpTable i) ethaddr) = [] := rfl
      have hholds : holds (.flush (s.arpTable i).ipaddr ethaddr p :: s.log) = holds s.log := rfl
      have hreleased : released (.flush (s.arpTable i).ipaddr ethaddr p :: s.log) =
          ((s.arpTable i).ipaddr, p) :: released s.log := rfl
      rw [hheld, hnew, hholds, hreleased, List.count_cons, List.count_cons]
      simp only [List.count_nil]
      ring

theorem Inv.update (h : Sound netif s) (a : U32) (m : EthAddr) {flags : U8}
    (hflags : flags = etharpFlagTryHard ∨ flags = etharpFlagFindOnly) :
    Sound netif (etharpUpdateArpEntry netif a m flags (s.emit (.heard a m))).1 := by
  have hheard := h.hear a m
  have hlast : heardOf a (s.emit (.heard a m)).log = some (m, 0) := if_pos rfl
  rw [etharpUpdateArpEntry]
  cases hunicast : nonUnicast netif a with
  | true =>
    refine hheard.settle fun i hres hip => ?_
    have := (h.entry i).unicast (used_of_resolved hres)
    rw [show (s.arpTable i).ipaddr = a from hip, hunicast] at this
    nomatch this
  | false =>
    have hr := etharpFindEntry_found a (s.emit (.heard a m)) hflags
    simp only [Bool.false_eq_true, if_false]
    rcases hfind : etharpFindEntry a flags (s.emit (.heard a m)) with ⟨s', res⟩
    rw [hfind] at hr
    have hs' := hr.inv hheard
    have hlast' := (hr.heardOf a).trans hlast
    cases res with
    | none =>
      cases hr with
      | absent habsent hflags =>
        exact hheard.settle fun i hres hip => absurd hip (habsent i (used_of_resolved hres))
    | some i =>
      have hlearn := hs'.learn (hr.returned hheard) hlast' hunicast
      simp only
      cases hq : (s'.arpTable i).q <;> rw [hq] at hlearn <;> exact hlearn

/-! ## The other functions -/

theorem Inv.cleanup (h : Sound netif s) : Sound netif (etharpCleanupNetif s) := by
  have hloop (slots : List Slot) (s : Etharp) (hs : Sound netif s) :
      Sound netif (slots.foldl etharpCleanupEntry s) := by
    induction slots generalizing s with
    | nil => exact hs
    | cons i slots ih =>
      refine ih _ ?_
      rw [etharpCleanupEntry]
      split_ifs
      · exact hs.free i fun _ _ => rfl
      · exact hs
  exact hloop _ s h

theorem request_cases (netif : EtharpNetif) (ipaddr : U32) (room : Bool) (s : Etharp) :
    etharpRequest netif ipaddr room s = (s.emit (.arp (requestPacket netif ipaddr)), .ok) ∧
        room = true ∨
      etharpRequest netif ipaddr room s = (s, .mem) ∧ room = false := by
  cases room
  · exact .inr ⟨rfl, rfl⟩
  · exact .inl ⟨rfl, rfl⟩

theorem Inv.arp (h : Inv netif off late s) (frame : List U8) :
    Inv netif off late (s.emit (.arp frame)) := h.emit trivial h.truthful rfl rfl

theorem Inv.request (h : Inv netif off late s) (ipaddr : U32) (room : Bool) :
    Inv netif off late (etharpRequest netif ipaddr room s).1 := by
  rcases request_cases netif ipaddr room s with ⟨hr, -⟩ | ⟨hr, -⟩ <;> rw [hr]
  · exact h.arp _
  · exact h

theorem Inv.pass (h : Sound netif s) {i : Slot} (hres : (s.arpTable i).state.resolved = true)
    (q : List U8) :
    Sound netif (s.emit (.pass (s.arpTable i).ipaddr (s.arpTable i).ethaddr q)) := by
  refine h.emit trivial ⟨⟨(s.arpTable i).ctime.toNat, (h.entry i).age, ?_⟩, h.truthful⟩ rfl rfl
  exact (h.entry i).known hres id

theorem Inv.rerequest (h : Sound netif s) {i : Slot} (hstable : (s.arpTable i).state = .stable) :
    Sound netif (s.setEntry i { s.arpTable i with state := .stableRerequesting }) := by
  have hentry := h.entry i
  have hres : (s.arpTable i).state.resolved = true := by rw [hstable]; rfl
  have hused := used_of_resolved hres
  refine h.set i (fun _ _ => rfl) ?_ rfl fun _ => h.key hused
  exact {
    unicast := fun _ => hentry.unicast hused
    known := fun _ => hentry.known hres
    waits := fun p hp => by
      have := (hentry.waits p hp).1
      rw [hstable] at this
      nomatch this
    netif_eq := by rw [hentry.netif_eq, hstable]; rfl
    age := hentry.age
    pendingAge := nofun }

theorem Inv.outputToArpIndex (h : Sound netif s) {dstAddr : U32} {i : Slot}
    (hmatches : s.matchesStable dstAddr i = true) (q : Packet) (room : Room) :
    Sound netif (etharpOutputToArpIndex netif q dstAddr i room s).1 := by
  obtain ⟨hres, hip⟩ := Bool.and_eq_true_iff.mp hmatches
  rw [etharpOutputToArpIndex, beq_iff_eq.mp hip]
  split_ifs with hold
  · rcases request_cases netif (s.arpTable i).ipaddr room.request s with ⟨hr, -⟩ | ⟨hr, -⟩ <;> rw [hr]
    · have hsound := (h.arp (requestPacket netif (s.arpTable i).ipaddr)).rerequest (i := i) hold.1
      have hpass := hsound.pass (i := i) (by rw [setEntry_self]; rfl) q.data
      rw [setEntry_self] at hpass
      exact hpass
    · exact h.pass hres q.data
  · exact h.pass hres q.data

theorem Inv.queue (h : Sound netif s) {i : Slot} (hpending : (s.arpTable i).state = .pending)
    (hip : (s.arpTable i).ipaddr = ipaddr) (p : List U8) : Sound netif (s.queue i ipaddr p) := by
  subst hip
  have hentry := h.entry i
  have hused : (s.arpTable i).state ≠ .empty := by rw [hpending]; nofun
  have hnew (log : List ArpEvent) : EntryInv netif (fun _ => False) 0
      (.hold (s.arpTable i).ipaddr p :: log) { s.arpTable i with q := some p } := {
    unicast := hentry.unicast
    known := fun hres => by rw [hpending] at hres; nomatch hres
    waits := fun p' hp' => by
      obtain rfl := Option.some.inj hp'
      exact ⟨hpending, 0, Nat.zero_le _, if_pos rfl⟩
    netif_eq := hentry.netif_eq
    age := hentry.age
    pendingAge := hentry.pendingAge }
  have hheld : entryHeld { s.arpTable i with q := some p } = [((s.arpTable i).ipaddr, p)] := rfl
  cases hq : (s.arpTable i).q with
  | none =>
    have hold : entryHeld (s.arpTable i) = [] := by rw [entryHeld, hq]; rfl
    simp only [Etharp.queue, hq]
    refine h.change i (.hold (s.arpTable i).ipaddr p :: s.log) (fun _ _ => rfl)
      (fun _ _ hf => hf.silent trivial) (hnew _) (fun _ => h.key hused) h.truthful (fun x => ?_)
      s.cachedEntry
    have hholds : holds (.hold (s.arpTable i).ipaddr p :: s.log) =
        ((s.arpTable i).ipaddr, p) :: holds s.log := rfl
    have hreleased : released (.hold (s.arpTable i).ipaddr p :: s.log) = released s.log := rfl
    rw [hheld, hold, hholds, hreleased, List.count_cons, List.count_cons]
    simp only [List.count_nil]
    ring
  | some old =>
    have hold : entryHeld (s.arpTable i) = [((s.arpTable i).ipaddr, old)] := by
      rw [entryHeld, hq]
      rfl
    simp only [Etharp.queue, hq]
    refine h.change i (.hold (s.arpTable i).ipaddr p :: .drop (s.arpTable i).ipaddr old :: s.log)
      (fun _ _ => rfl) (fun _ _ hf => (hf.silent (by exact trivial)).silent trivial) (hnew _)
      (fun _ => h.key hused) h.truthful (fun x => ?_) s.cachedEntry
    have hholds : holds (.hold (s.arpTable i).ipaddr p :: .drop (s.arpTable i).ipaddr old :: s.log) =
        ((s.arpTable i).ipaddr, p) :: holds s.log := rfl
    have hreleased :
        released (.hold (s.arpTable i).ipaddr p :: .drop (s.arpTable i).ipaddr old :: s.log) =
          ((s.arpTable i).ipaddr, old) :: released s.log := rfl
    rw [hheld, hold, hholds, hreleased]
    simp only [List.count_cons, List.count_nil]
    ring

/-- The entry in which `etharp_query` has marked that its address is asked for. -/
theorem Inv.markPending (h : Sound netif s) {i : Slot} (hr : Returned ipaddr s i)
    (hunicast : nonUnicast netif ipaddr = false) : Sound netif (s.markPending i) ∧
      ((s.markPending i).arpTable i).ipaddr = ipaddr ∧
        ((s.markPending i).arpTable i).state ≠ .empty := by
  have hentry := h.entry i
  rw [Etharp.markPending]
  split_ifs with hempty
  · obtain ⟨hctime, hq⟩ := hr.young hempty
    rw [setEntry_self]
    refine ⟨h.set i (fun _ _ => rfl) ?_ rfl fun _ j hj hused => ?_, hr.ipaddr_eq, nofun⟩
    · exact {
        unicast := fun _ => by rw [hr.ipaddr_eq]; exact hunicast
        known := nofun
        waits := fun p hp => by rw [hq] at hp; nomatch hp
        netif_eq := by rw [hentry.netif_eq, hempty]; rfl
        age := hentry.age
        pendingAge := fun _ => by rw [hctime]; exact Nat.zero_lt_succ _ }
    · rw [hr.ipaddr_eq]
      exact hr.others j hj hused
  · exact ⟨h, hr.ipaddr_eq, hempty⟩

theorem arpTable_request (netif : EtharpNetif) (ipaddr : U32) (room : Bool) (s : Etharp) :
    (etharpRequest netif ipaddr room s).1.arpTable = s.arpTable := by
  cases room <;> rfl

theorem arpTable_ask (ipaddr : U32) (q : Option Packet) (room : Room) (s : Etharp) (i : Slot) :
    (askEntry netif ipaddr q room s i).1.arpTable = s.arpTable := by
  rw [askEntry]
  split_ifs
  · exact arpTable_request ..
  · rfl

theorem Inv.ask (h : Inv netif off late s) (ipaddr : U32) (q : Option Packet) (room : Room)
    (i : Slot) : Inv netif off late (askEntry netif ipaddr q room s i).1 := by
  rw [askEntry]
  split_ifs
  · exact h.request ..
  · exact h

theorem Inv.queryEntry (h : Sound netif s) {i : Slot} (hr : Returned ipaddr s i)
    (hunicast : nonUnicast netif ipaddr = false) (q : Option Packet) (room : Room) :
    Sound netif (queryEntry netif ipaddr q room s i).1 := by
  obtain ⟨hmarked, hip, hused⟩ := h.markPending hr hunicast
  have hasked := hmarked.ask ipaddr q room i
  simp only [Arp.queryEntry, arpTable_ask]
  cases q with
  | none => exact hasked
  | some q =>
    simp only
    split_ifs with hres hpending hroom
    · have hpass := (hasked.cached i).pass (i := i) (by rw [arpTable_ask]; exact hres) q.data
      simp only [arpTable_ask, hip] at hpass
      exact hpass
    · exact hasked.queue (by rw [arpTable_ask]; exact hpending) (by rw [arpTable_ask]; exact hip)
        q.data
    · exact hasked
    · exact hasked

theorem Inv.query (h : Sound netif s) (a : U32) (q : Option Packet) (room : Room) :
    Sound netif (etharpQuery netif a q room s).1 := by
  rw [etharpQuery]
  cases hunicast : nonUnicast netif a with
  | true => exact h
  | false =>
    have hr := etharpFindEntry_found a s (.inl rfl)
    simp only [Bool.false_eq_true, if_false]
    rcases hfind : etharpFindEntry a etharpFlagTryHard s with ⟨s1, res⟩
    rw [hfind] at hr
    cases res with
    | none => exact hr.inv h
    | some i => exact Inv.queryEntry (hr.inv h) (hr.returned h) hunicast q room

theorem Inv.output (h : Sound netif s) (q : Packet) (a : U32) (room : Room) :
    Sound netif (etharpOutput netif q a room s).1 := by
  rw [etharpOutput]
  split_ifs with hheader hbroadcast hmulticast
  · exact h
  · exact h.emit trivial h.truthful rfl rfl
  · exact h.emit trivial h.truthful rfl rfl
  · cases nextHop netif a with
    | none => exact h
    | some dstAddr =>
      simp only
      split_ifs with hcached
      · exact h.outputToArpIndex hcached q room
      · cases hfind : (List.finRange arpTableSize).find? (s.matchesStable dstAddr) with
        | none => exact h.query dstAddr (some q) room
        | some i => exact (h.cached i).outputToArpIndex (List.find?_some hfind) q room

theorem Inv.arpInput (h : Sound netif s) (q : Piece) (rest : List Piece) :
    Sound netif (etharpArpInput netif q rest s) := by
  have hsound := h.update (sipaddr q.bytes) (shwaddr q.bytes) (inputFlags_cases netif q.bytes)
  simp only [etharpArpInput]
  split_ifs
  · exact h
  · exact h
  · exact hsound.arp _
  · exact hsound

theorem Inv.ethernetInput (h : Sound netif s) (p : List Piece) :
    Sound netif (ethernetInput netif p s).1 := by
  cases p with
  | nil => exact h
  | cons q rest =>
    simp only [Arp.ethernetInput]
    split_ifs
    · exact h
    · exact h
    · exact h.arpInput ..
    · exact h

theorem sound_start (netif : EtharpNetif) : Sound netif .start where
  distinct := fun _ hi => absurd rfl hi
  entry := fun _ => entryInv_empty ..
  truthful := trivial
  settled := fun x => by
    have hqueued : queued (fun _ => emptyEntry) = [] := by
      rw [queued, List.flatMap_eq_nil_iff]
      exact fun _ _ => rfl
    rw [Etharp.start, hqueued]
    rfl

end

end EnvirMonitor.Arp
