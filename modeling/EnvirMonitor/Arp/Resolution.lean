import EnvirMonitor.Arp.Cache

/-! The exchange that resolves an address, between two stations that run this code. -/

namespace EnvirMonitor.Arp
open Machine Lwip

section
variable {netif : EtharpNetif} {s : Etharp} {a : U32} {m : EthAddr}

theorem Inv.update_learns {off : U32 → Prop} {late : Slot → ℕ} (h : Inv netif off late s)
    (hunicast : nonUnicast netif a = false) :
    ∃ i e, e.ipaddr = a ∧
      ((etharpUpdateArpEntry netif a m etharpFlagTryHard s).1.arpTable i) = learned e m := by
  have hr := etharpFindEntry_found a s (.inl rfl)
  rcases hfind : etharpFindEntry a etharpFlagTryHard s with ⟨s', _ | i⟩ <;> rw [hfind] at hr
  · cases hr with
    | absent habsent hflags => exact absurd hflags (by decide)
  · refine ⟨i, s'.arpTable i, (hr.returned h).ipaddr_eq, ?_⟩
    rw [etharpUpdateArpEntry, hunicast, hfind]
    simp only [Bool.false_eq_true, if_false]
    cases (s'.arpTable i).q <;> exact Function.update_self ..

/-- A resolved entry is what `etharp_find_addr` would return. -/
def Etharp.resolves (s : Etharp) (ipaddr : U32) (ethaddr : EthAddr) : Prop :=
  ∃ i, (s.arpTable i).state.resolved = true ∧ (s.arpTable i).ipaddr = ipaddr ∧
    (s.arpTable i).ethaddr = ethaddr

theorem Inv.update_resolves (h : Sound netif s) (hunicast : nonUnicast netif a = false) :
    (etharpUpdateArpEntry netif a m etharpFlagTryHard (s.emit (.heard a m))).1.resolves a m := by
  obtain ⟨i, e, hip, hentry⟩ := (h.hear a m).update_learns (m := m) hunicast
  refine ⟨i, ?_, ?_, ?_⟩ <;> rw [hentry]
  · rfl
  · exact hip
  · rfl

theorem Inv.update_flush (h : Sound netif s) {i : Slot} {p : List U8}
    (hip : (s.arpTable i).ipaddr = a) (hq : (s.arpTable i).q = some p)
    (hunicast : nonUnicast netif a = false) {flags : U8}
    (hflags : flags = etharpFlagTryHard ∨ flags = etharpFlagFindOnly) (ev : ArpEvent) :
    (etharpUpdateArpEntry netif a m flags (s.emit ev)).1.log = .flush a m p :: ev :: s.log := by
  have hused : (s.arpTable i).state ≠ .empty := by
    rw [((h.entry i).waits p hq).1]
    nofun
  have hr := etharpFindEntry_found a (s.emit ev) hflags
  have hnot : ¬ Absent (s.emit ev) a := fun habsent => habsent i hused hip
  rw [etharpUpdateArpEntry, hunicast]
  simp only [Bool.false_eq_true, if_false]
  generalize etharpFindEntry a flags (s.emit ev) = r at hr
  cases hr with
  | matched j hjused hjip =>
    obtain rfl : j = i := h.distinct hjused hused (hjip.trans hip.symm)
    have hqj : ((s.emit ev).arpTable j).q = some p := hq
    have hipj : ((s.emit ev).arpTable j).ipaddr = a := hjip
    simp only [hqj, hipj]
    rfl
  | absent habsent hflags => exact absurd habsent hnot
  | fresh j habsent hflags hempty => exact absurd habsent hnot
  | recycled j habsent hflags hfull hspare => exact absurd habsent hnot

theorem queue_entry (s : Etharp) (i : Slot) (ipaddr : U32) (p : List U8) :
    (s.queue i ipaddr p).arpTable i = { s.arpTable i with q := some p } := by
  simp only [Etharp.queue]
  cases (s.arpTable i).q <;> exact Function.update_self ..

theorem queryEntry_pending {i : Slot} {q : Packet} {room : Room} (hroom : room.request = true)
    (htaken : (q.rom || room.copy) = true)
    (hpending : ((s.markPending i).arpTable i).state = .pending) :
    (queryEntry netif a (some q) room s i).1 =
      (((s.markPending i).emit (.arp (requestPacket netif a))).queue i a q.data) := by
  have hask : askEntry netif a (some q) room (s.markPending i) i =
      ((s.markPending i).emit (.arp (requestPacket netif a)), .ok) := by
    rw [askEntry, if_pos (.inl hpending), hroom]
    rfl
  have hresolved : ((s.markPending i).arpTable i).state.resolved = false := by
    rw [hpending]
    rfl
  simp only [queryEntry, hask]
  rw [show ((s.markPending i).emit (.arp (requestPacket netif a))).arpTable =
    (s.markPending i).arpTable from rfl, hresolved, if_neg Bool.false_ne_true, if_pos hpending, htaken]
  rfl

/-- What a packet leaves behind whose next hop is not resolved: a request, and itself. -/
structure Asked (netif : EtharpNetif) (a : U32) (p : List U8) (s s' : Etharp) : Prop where
  request : ∃ later earlier, s'.log = later ++ .arp (requestPacket netif a) :: earlier ++ s.log
  waits : ∃ i, (s'.arpTable i).ipaddr = a ∧ (s'.arpTable i).q = some p

theorem Inv.query_asks (h : Sound netif s) {q : Packet} {room : Room} (hroom : room.request = true)
    (htaken : (q.rom || room.copy) = true) (hunicast : nonUnicast netif a = false)
    (hnone : ∀ i, s.matchesStable a i = false) :
    Asked netif a q.data s (etharpQuery netif a (some q) room s).1 := by
  have hr := etharpFindEntry_found a s (.inl rfl)
  rcases hfind : etharpFindEntry a etharpFlagTryHard s with ⟨s1, _ | i⟩ <;> rw [hfind] at hr
  · cases hr with
    | absent habsent hflags => exact absurd hflags (by decide)
  have haddress := (hr.returned h).ipaddr_eq
  obtain ⟨earlier, hearlier, -⟩ := hr.extends netif fun _ _ => True
  have hmarked : ((s1.markPending i).arpTable i).state = .pending ∧
      ((s1.markPending i).arpTable i).ipaddr = a ∧ (s1.markPending i).log = s1.log := by
    rw [Etharp.markPending]
    split_ifs with hempty
    · rw [setEntry_self]
      exact ⟨rfl, haddress, rfl⟩
    · refine ⟨?_, haddress, rfl⟩
      have hfresh (s : Etharp) : ((s.create i a).arpTable i).state = (s.arpTable i).state := by
        rw [Etharp.create, setEntry_self]
      cases hr with
      | matched _ hused hip =>
        refine (resolved_or_pending hused).resolve_left fun hres => ?_
        have hmatch := hnone i
        rw [Etharp.matchesStable, hres, haddress] at hmatch
        simp at hmatch
      | fresh _ habsent hflags hempty' => exact absurd ((hfresh s).trans hempty') hempty
      | recycled _ habsent hflags hfull hspare =>
        refine absurd ((hfresh _).trans ?_) hempty
        rw [arpTable_free, Function.update_self]
        rfl
  obtain ⟨hpending, hip, hlog⟩ := hmarked
  have hquery : (etharpQuery netif a (some q) room s).1 =
      (((s1.markPending i).emit (.arp (requestPacket netif a))).queue i a q.data) := by
    rw [etharpQuery, hunicast, hfind]
    exact queryEntry_pending hroom htaken hpending
  rw [hquery]
  refine ⟨?_, i, ?_, ?_⟩
  · obtain ⟨later, hlater, -⟩ := extends_queue netif (fun _ _ => True) (p := q.data) trivial i
      ((s1.markPending i).emit (.arp (requestPacket netif a)))
    refine ⟨later, earlier, hlater.trans ?_⟩
    rw [Etharp.emit, hlog, hearlier, List.append_assoc, List.cons_append]
  · rw [queue_entry]
    exact hip
  · rw [queue_entry]

end

structure Carries (p : Piece) (rest : List Piece) (frame : List U8) : Prop where
  first : sizeofEtharpPacket ≤ p.bytes.length
  bytes : ∃ padding, chainBytes (p :: rest) = frame ++ padding

theorem Carries.fields {p : Piece} {rest : List Piece} {frame : List U8} (h : Carries p rest frame)
    (hlen : sizeofEtharpPacket ≤ frame.length) :
    ethType p.bytes = ethType frame ∧ headerRight p.bytes = headerRight frame ∧
      shwaddr p.bytes = shwaddr frame ∧ sipaddr p.bytes = sipaddr frame ∧
        dipaddr p.bytes = dipaddr frame ∧ opcode p.bytes = opcode frame := by
  obtain ⟨padding, hp⟩ := h.bytes
  have hchain : chainBytes (p :: rest) = p.bytes ++ chainBytes rest := List.flatMap_cons
  obtain ⟨h1, h2, h3, h4, h5, h6⟩ := fields_append h.first (chainBytes rest)
  obtain ⟨f1, f2, f3, f4, f5, f6⟩ := fields_append hlen padding
  rw [← hchain, hp] at h1 h2 h3 h4 h5 h6
  exact ⟨h1.symm.trans f1, h2.symm.trans f2, h3.symm.trans f3, h4.symm.trans f4, h5.symm.trans f5,
    h6.symm.trans f6⟩

theorem ne_zero_of_unicast {netif : EtharpNetif} {a : U32} (h : nonUnicast netif a = false) :
    (a != 0) = true := by
  rw [nonUnicast, Bool.or_eq_false_iff, Bool.or_eq_false_iff] at h
  rw [bne, h.1.1]
  rfl

/-- A packet that was sent as an ARP packet to the address of the interface. -/
theorem ethernetInput_arp {netif : EtharpNetif} (s : Etharp) {p : Piece} (rest : List Piece)
    (hfirst : sizeofEtharpPacket ≤ p.bytes.length) (htype : ethType p.bytes = htons ethtypeArp)
    (hheader : headerRight p.bytes = true) (hforUs : forUs netif p.bytes = true) :
    let s' := (etharpUpdateArpEntry netif (sipaddr p.bytes) (shwaddr p.bytes) etharpFlagTryHard
      (s.emit (.heard (sipaddr p.bytes) (shwaddr p.bytes)))).1
    (ethernetInput netif (p :: rest) s).1 = if opcode p.bytes = htons arpRequest then
      s'.emit (.arp (replyPacket netif p.bytes ++ chainBytes rest)) else s' := by
  have hlong : ¬ p.bytes.length ≤ sizeofEthHdr := by
    simp only [sizeofEtharpPacket] at hfirst
    omega
  have hnotIp : ¬ ethType p.bytes = htons ethtypeIp := by
    rw [htype]
    decide
  intro s'
  rw [ethernetInput, if_neg hlong, if_neg hnotIp, if_pos htype, etharpArpInput,
    if_neg (not_lt.mpr hfirst), hheader, inputFlags, hforUs]
  simp only [Bool.not_true, Bool.false_eq_true, if_false, if_true, and_true]
  rfl

/-- From the packet that finds no address to the packet that is sent: the request, the answer of
the station that has the address, and the packet that waited, to that station. -/
structure Exchange (a b : EtharpNetif) (p : List U8) (reply : List U8) (s s1 s2 t1 : Etharp) : Prop where
  asked : Asked a b.ipAddr p s s1
  answered : t1.log.head? = some (.arp reply)
  sent : s2.log.head? = some (.flush b.ipAddr b.hwaddr p)
  learned : s2.resolves b.ipAddr b.hwaddr
  learned' : t1.resolves a.ipAddr a.hwaddr

theorem arp_resolves {a b : EtharpNetif} (ops ops' : List ArpOp) {q : Packet} {dst : U32} {room : Room}
    (hroom : (room.header && room.request && (q.rom || room.copy)) = true)
    (hbroadcast : ipAddrIsbroadcast dst a.toNetif = false) (hmulticast : ipAddrIsmulticast dst = false)
    (hhop : nextHop a dst = some b.ipAddr) (hb : nonUnicast a b.ipAddr = false)
    (ha : nonUnicast b a.ipAddr = false)
    (hnone : ∀ i, (runs a .start ops).matchesStable b.ipAddr i = false)
    {p p' : Piece} {rest rest' : List Piece} (hp : Carries p rest (requestPacket a b.ipAddr))
    (hp' : Carries p' rest' (replyPacket b p.bytes ++ chainBytes rest)) :
    let s1 := (etharpOutput a q dst room (runs a .start ops)).1
    Exchange a b q.data (replyPacket b p.bytes ++ chainBytes rest) (runs a .start ops) s1
      (ethernetInput a (p' :: rest') s1).1 (ethernetInput b (p :: rest) (runs b .start ops')).1 := by
  intro s1
  rw [Bool.and_eq_true, Bool.and_eq_true] at hroom
  obtain ⟨⟨hheader, hrequest⟩, htaken⟩ := hroom
  have hs := sound_runs a ops
  have hquery : s1 = (etharpQuery a b.ipAddr (some q) room (runs a .start ops)).1 := by
    have hmiss : (List.finRange arpTableSize).find?
        ((runs a .start ops).matchesStable b.ipAddr) = none :=
      List.find?_eq_none.mpr fun i _ => by rw [hnone i]; nofun
    have hcached := hnone (runs a .start ops).cachedEntry
    simp only [s1, etharpOutput, hheader, hbroadcast, hmulticast, hhop, hcached, hmiss, Bool.not_true,
      Bool.false_eq_true, if_false]
  have hasked : Asked a b.ipAddr q.data (runs a .start ops) s1 := by
    rw [hquery]
    exact hs.query_asks hrequest htaken hb hnone
  have hs1 : Sound a s1 := hs.output q dst room
  -- what the other station reads is the request
  obtain ⟨htype, hright, hmac, hip, hdip, hop⟩ := hp.fields le_rfl
  obtain ⟨f1, f2, f3, f4, f5, f6⟩ := etharpPacket_fields a.hwaddr ethbroadcast a.hwaddr a.ipAddr
    ethzero b.ipAddr arpRequest []
  rw [List.append_nil] at f1 f2 f3 f4 f5 f6
  have hforUs : forUs b p.bytes = true := by
    rw [forUs, ne_zero_of_unicast hb, hdip.trans f5]
    exact beq_self_eq_true _
  have ht1 := ethernetInput_arp (runs b .start ops') rest hp.first (htype.trans f1) (hright.trans f2)
    hforUs
  simp only [if_pos (hop.trans f6)] at ht1
  -- what comes back is the reply, with the addresses of the station that was asked
  obtain ⟨hlen, g1, g2, g3, g4, g5, g6⟩ := replyPacket_fields b hp.first
  have hreply : sizeofEtharpPacket ≤ (replyPacket b p.bytes).length := by
    rw [hlen]
    exact hp.first
  obtain ⟨k1, k2, k3, k4, k5, k6⟩ := fields_append hreply (chainBytes rest)
  obtain ⟨htype', hright', hmac', hip', hdip', hop'⟩ :=
    hp'.fields (hreply.trans (by rw [List.length_append]; omega))
  have hforUs' : forUs a p'.bytes = true := by
    rw [forUs, ne_zero_of_unicast ha, hdip'.trans (k5.trans (g5.trans (hip.trans f4)))]
    exact beq_self_eq_true _
  have ht2 := ethernetInput_arp s1 rest' hp'.first
    (htype'.trans (k1.trans (g1.trans (htype.trans f1))))
    (hright'.trans (k2.trans (g2.trans (hright.trans f2)))) hforUs'
  have hnotRequest : ¬ opcode p'.bytes = htons arpRequest := by
    rw [hop'.trans (k6.trans g6)]
    decide
  simp only [if_neg hnotRequest] at ht2
  rw [hip'.trans (k4.trans g4), hmac'.trans (k3.trans g3)] at ht2
  rw [hip.trans f4, hmac.trans f3] at ht1
  obtain ⟨i, hipi, hqi⟩ := hasked.waits
  refine ⟨hasked, ?_, ?_, ?_, ?_⟩
  · rw [ht1]
    rfl
  · rw [ht2, hs1.update_flush hipi hqi hb (.inl rfl)]
    rfl
  · rw [ht2]
    exact hs1.update_resolves hb
  · rw [ht1]
    exact (sound_runs b ops').update_resolves ha

def sampleRequest : Piece := ⟨0, requestPacket sampleStation sampleHost.ipAddr⟩

def sampleReply : Piece := ⟨0, replyPacket sampleHost sampleRequest.bytes ++ chainBytes []⟩

theorem arp_resolves_sample :
    Exchange sampleStation sampleHost [1, 2] sampleReply.bytes .start
      (etharpOutput sampleStation ⟨[1, 2], false⟩ sampleHost.ipAddr sampleRoom .start).1
      (ethernetInput sampleStation [sampleReply]
        (etharpOutput sampleStation ⟨[1, 2], false⟩ sampleHost.ipAddr sampleRoom .start).1).1
      (ethernetInput sampleHost [sampleRequest] .start).1 :=
  @arp_resolves sampleStation sampleHost [] [] ⟨[1, 2], false⟩ sampleHost.ipAddr sampleRoom rfl rfl rfl
    rfl rfl rfl (fun _ => rfl) sampleRequest sampleReply [] [] ⟨by decide, [], rfl⟩
    ⟨by decide, [], rfl⟩

end EnvirMonitor.Arp
