import EnvirMonitor.Arp.Find

/-! The events that each function of `etharp.c` appends. -/

namespace EnvirMonitor.Arp
open Machine Lwip

/-- The events of calls that read no packet, and that send or queue what is meant to go there. -/
def ArpEvent.Local (netif : EtharpNetif) (aims : U32 → List U8 → Prop) : ArpEvent → Prop
  | arp frame => ∃ a, frame = requestPacket netif a
  | pass a _ p => aims a p
  | hold a p => aims a p
  | heard _ _ => False
  | tick => False
  | _ => True

def Extends (P : ArpEvent → Prop) (s s' : Etharp) : Prop :=
  ∃ new, s'.log = new ++ s.log ∧ ∀ ev ∈ new, P ev

section
variable {P Q : ArpEvent → Prop} {s s' s'' : Etharp}

theorem Extends.same (h : s'.log = s.log) : Extends P s s' :=
  ⟨[], h, fun _ hev => absurd hev List.not_mem_nil⟩

theorem Extends.one (ev : ArpEvent) (hev : P ev) (h : s'.log = ev :: s.log) : Extends P s s' :=
  ⟨[ev], h, fun _ hmem => List.mem_singleton.mp hmem ▸ hev⟩

theorem Extends.trans (h : Extends P s s') (h' : Extends P s' s'') : Extends P s s'' := by
  obtain ⟨new, hlog, hnew⟩ := h
  obtain ⟨new', hlog', hnew'⟩ := h'
  refine ⟨new' ++ new, by rw [hlog', hlog, List.append_assoc], fun ev hev => ?_⟩
  exact (List.mem_append.mp hev).elim (hnew' ev) (hnew ev)

theorem Extends.mono (h : Extends P s s') (hPQ : ∀ ev, P ev → Q ev) : Extends Q s s' := by
  obtain ⟨new, hlog, hnew⟩ := h
  exact ⟨new, hlog, fun ev hev => hPQ ev (hnew ev hev)⟩

theorem Extends.foldl {α : Type*} {f : Etharp → α → Etharp} (hf : ∀ s a, Extends P s (f s a))
    (l : List α) (s : Etharp) : Extends P s (l.foldl f s) := by
  induction l generalizing s with
  | nil => exact .same rfl
  | cons a l ih => exact (hf s a).trans (ih _)

end

section
variable (netif : EtharpNetif) (aims : U32 → List U8 → Prop) {s : Etharp} {ipaddr : U32}

theorem extends_free (i : Slot) (s : Etharp) :
    Extends (ArpEvent.Local netif aims) s (etharpFreeEntry i s) := by
  rw [etharpFreeEntry]
  cases (s.arpTable i).q with
  | none => exact .same rfl
  | some p => exact .one (.drop (s.arpTable i).ipaddr p) trivial rfl

theorem extends_tmrEntry (s : Etharp) (i : Slot) :
    Extends (ArpEvent.Local netif aims) s (etharpTmrEntry s i) := by
  simp only [etharpTmrEntry]
  split_ifs
  · exact .same rfl
  · exact Extends.trans (.same rfl) (extends_free netif aims i _)
  · exact .same rfl
  · exact .same rfl

theorem Found.extends {flags : U8} {r : Etharp × Option Slot} (hr : Found ipaddr flags s r) :
    Extends (ArpEvent.Local netif aims) s r.1 := by
  cases hr with
  | matched i hused hip => exact .same rfl
  | absent habsent hflags => exact .same rfl
  | fresh i habsent hflags hempty => exact .same rfl
  | recycled i habsent hflags hfull hspare => exact (extends_free netif aims i s).trans (.same rfl)

theorem extends_update (a : U32) (m : EthAddr) {flags : U8}
    (hflags : flags = etharpFlagTryHard ∨ flags = etharpFlagFindOnly) (s : Etharp) :
    Extends (ArpEvent.Local netif aims) s (etharpUpdateArpEntry netif a m flags s).1 := by
  have hr := etharpFindEntry_found a s hflags
  rw [etharpUpdateArpEntry]
  split_ifs
  · exact .same rfl
  · rcases hfind : etharpFindEntry a flags s with ⟨s', _ | i⟩ <;> rw [hfind] at hr
    · exact hr.extends netif aims
    · refine Extends.trans (hr.extends netif aims) ?_
      simp only
      cases (s'.arpTable i).q with
      | none => exact .same rfl
      | some p => exact .one (.flush (s'.arpTable i).ipaddr m p) trivial rfl

theorem extends_request (ipaddr : U32) (room : Bool) (s : Etharp) :
    Extends (ArpEvent.Local netif aims) s (etharpRequest netif ipaddr room s).1 := by
  cases room with
  | false => exact .same rfl
  | true => exact .one (.arp (requestPacket netif ipaddr)) ⟨ipaddr, rfl⟩ rfl

theorem extends_cleanup (s : Etharp) :
    Extends (ArpEvent.Local netif aims) s (etharpCleanupNetif s) := by
  refine .foldl (fun s i => ?_) _ s
  rw [etharpCleanupEntry]
  split_ifs
  · exact extends_free netif aims i s
  · exact .same rfl

theorem extends_outputToArpIndex {q : Packet} {dstAddr : U32} (hq : aims dstAddr q.data) (i : Slot)
    (room : Room) (s : Etharp) :
    Extends (ArpEvent.Local netif aims) s (etharpOutputToArpIndex netif q dstAddr i room s).1 := by
  have hpass (s' : Etharp) : Extends (ArpEvent.Local netif aims) s'
      (s'.emit (.pass dstAddr (s.arpTable i).ethaddr q.data)) :=
    .one (.pass dstAddr (s.arpTable i).ethaddr q.data) hq rfl
  rw [etharpOutputToArpIndex]
  split_ifs
  · have hrequest := extends_request netif aims (s.arpTable i).ipaddr room.request s
    revert hrequest
    cases room.request
    · exact fun hrequest => hrequest.trans (hpass _)
    · exact fun hrequest => (hrequest.trans (.same rfl)).trans (hpass _)
  · exact hpass s

theorem extends_queue {p : List U8} (hp : aims ipaddr p) (i : Slot) (s : Etharp) :
    Extends (ArpEvent.Local netif aims) s (s.queue i ipaddr p) := by
  simp only [Etharp.queue]
  cases (s.arpTable i).q with
  | none => exact .one (.hold ipaddr p) hp rfl
  | some old =>
    exact ⟨[.hold ipaddr p, .drop (s.arpTable i).ipaddr old], rfl,
      List.forall_mem_cons.mpr ⟨hp, List.forall_mem_singleton.mpr trivial⟩⟩

theorem extends_queryEntry {q : Option Packet} (hq : ∀ q', q = some q' → aims ipaddr q'.data)
    (room : Room) (s : Etharp) (i : Slot) :
    Extends (ArpEvent.Local netif aims) s (queryEntry netif ipaddr q room s i).1 := by
  have hmarked : Extends (ArpEvent.Local netif aims) s (s.markPending i) := by
    rw [Etharp.markPending]
    split_ifs <;> exact .same rfl
  have hextends : Extends (ArpEvent.Local netif aims) s
      (askEntry netif ipaddr q room (s.markPending i) i).1 := by
    rw [askEntry]
    split_ifs
    · exact hmarked.trans (extends_request ..)
    · exact hmarked
  simp only [queryEntry]
  set asked := askEntry netif ipaddr q room (s.markPending i) i
  cases q with
  | none => exact hextends
  | some q =>
    simp only
    split_ifs
    · exact hextends.trans (.one (.pass ipaddr (asked.1.arpTable i).ethaddr q.data) (hq q rfl) rfl)
    · exact hextends.trans (extends_queue netif aims (hq q rfl) i _)
    · exact hextends
    · exact hextends

theorem extends_query {q : Option Packet} (hq : ∀ q', q = some q' → aims ipaddr q'.data) (room : Room)
    (s : Etharp) : Extends (ArpEvent.Local netif aims) s (etharpQuery netif ipaddr q room s).1 := by
  have hr := etharpFindEntry_found ipaddr s (.inl rfl)
  rw [etharpQuery]
  split_ifs
  · exact .same rfl
  · rcases hfind : etharpFindEntry ipaddr etharpFlagTryHard s with ⟨s', _ | i⟩ <;> rw [hfind] at hr
    · exact hr.extends netif aims
    · exact (hr.extends netif aims).trans (extends_queryEntry netif aims hq room _ i)

theorem extends_output {q : Packet} (hq : ∀ a, nextHop netif ipaddr = some a → aims a q.data)
    (room : Room) (s : Etharp) :
    Extends (ArpEvent.Local netif aims) s (etharpOutput netif q ipaddr room s).1 := by
  rw [etharpOutput]
  split_ifs
  · exact .same rfl
  · exact .one (.group ipaddr ethbroadcast q.data) trivial rfl
  · exact .one (.group ipaddr (mcastaddr ipaddr) q.data) trivial rfl
  · cases hhop : nextHop netif ipaddr with
    | none => exact .same rfl
    | some dstAddr =>
      have haims := hq dstAddr hhop
      simp only
      split_ifs
      · exact extends_outputToArpIndex netif aims haims ..
      · cases (List.finRange arpTableSize).find? (s.matchesStable dstAddr) with
        | none => exact extends_query netif aims (fun q' hq' => Option.some.inj hq' ▸ haims) room s
        | some i => exact Extends.trans (.same rfl) (extends_outputToArpIndex netif aims haims ..)

def Heard (netif : EtharpNetif) (p : List Piece) (ev : ArpEvent) : Prop :=
  ev.Local netif (fun _ _ => False) ∨ ∃ q rest, p = q :: rest ∧ sizeofEtharpPacket ≤ q.bytes.length ∧
    ethType q.bytes = htons ethtypeArp ∧ (ev = .heard (sipaddr q.bytes) (shwaddr q.bytes) ∨
      ev = .arp (replyPacket netif q.bytes ++ chainBytes rest))

theorem extends_ethernetInput (p : List Piece) (s : Etharp) :
    Extends (Heard netif p) s (ethernetInput netif p s).1 := by
  cases p with
  | nil => exact .same rfl
  | cons q rest =>
    simp only [ethernetInput]
    split_ifs with hshort hip harp
    · exact .same rfl
    · exact .same rfl
    · simp only [etharpArpInput]
      split_ifs with hlen hwrong
      · exact .same rfl
      · exact .same rfl
      all_goals
        have hheard : Extends (Heard netif (q :: rest)) s
            (s.emit (.heard (sipaddr q.bytes) (shwaddr q.bytes))) :=
          .one _ (.inr ⟨q, rest, rfl, not_lt.mp hlen, harp, .inl rfl⟩) rfl
        have hupdate := (extends_update netif (fun _ _ => False) (sipaddr q.bytes) (shwaddr q.bytes)
          (inputFlags_cases netif q.bytes)
            (s.emit (.heard (sipaddr q.bytes) (shwaddr q.bytes)))).mono
          fun _ hev => (Or.inl hev : Heard netif (q :: rest) _)
      · exact (hheard.trans hupdate).trans
          (.one _ (.inr ⟨q, rest, rfl, not_lt.mp hlen, harp, .inr rfl⟩) rfl)
      · exact hheard.trans hupdate
    · exact .same rfl

end

end EnvirMonitor.Arp
