import EnvirMonitor.Arp.Resolution
import Mathlib.Logic.Relation

/-! Stations on one Ethernet that all run this code. A frame that was sent may arrive at any
station, any number of times, at any later time, cut into any buffers and padded, or be lost. -/

namespace EnvirMonitor.Arp
open Machine Lwip

def ArpEvent.frame (netif : EtharpNetif) : ArpEvent → Option (List U8)
  | arp frame => some frame
  | group _ dst q => some (ipFrame netif dst q)
  | pass _ dst q => some (ipFrame netif dst q)
  | flush _ dst p => some (ipFrame netif dst p)
  | _ => none

variable {ι : Type*}

def stations (netifs : ι → EtharpNetif) (calls : ι → List ArpOp) (i : ι) : Etharp :=
  runs (netifs i) .start (calls i)

def Sent (netifs : ι → EtharpNetif) (net : ι → Etharp) (frame : List U8) : Prop :=
  ∃ i, ∃ ev ∈ (net i).log, ev.frame (netifs i) = some frame

/-- A station makes one more call, of which `ethernet_input` needs a frame that was sent. -/
inductive NetStep [DecidableEq ι] (netifs : ι → EtharpNetif) :
    (ι → List ArpOp) → (ι → List ArpOp) → Prop
  | call (calls : ι → List ArpOp) (i : ι) (op : ArpOp) (hop : ∀ p, op ≠ .input p) :
      NetStep netifs calls (Function.update calls i (calls i ++ [op]))
  | deliver (calls : ι → List ArpOp) (i : ι) (p : List Piece) (frame padding : List U8)
      (hsent : Sent netifs (stations netifs calls) frame) (hp : chainBytes p = frame ++ padding) :
      NetStep netifs calls (Function.update calls i (calls i ++ [.input p]))

def NetReachable [DecidableEq ι] (netifs : ι → EtharpNetif) (calls : ι → List ArpOp) : Prop :=
  Relation.ReflTransGen (NetStep netifs) (fun _ => []) calls

def Owned (netifs : ι → EtharpNetif) (ipaddr : U32) (ethaddr : EthAddr) : Prop :=
  ∃ i, (netifs i).ipAddr = ipaddr ∧ (netifs i).hwaddr = ethaddr

def ArpEvent.Right (netifs : ι → EtharpNetif) : ArpEvent → Prop
  | arp frame => sizeofEtharpPacket ≤ frame.length ∧ Owned netifs (sipaddr frame) (shwaddr frame)
  | heard ipaddr ethaddr => Owned netifs ipaddr ethaddr
  | _ => True

structure NetInv (netifs : ι → EtharpNetif) (net : ι → Etharp) : Prop where
  sound : ∀ i, Sound (netifs i) (net i)
  right : ∀ i, ∀ ev ∈ (net i).log, ev.Right netifs

section
variable {netifs : ι → EtharpNetif} {net : ι → Etharp}

theorem right_of_local {i : ι} {aims : U32 → List U8 → Prop} {ev : ArpEvent}
    (h : ev.Local (netifs i) aims) : ev.Right netifs := by
  cases ev with
  | arp frame =>
    obtain ⟨a, rfl⟩ := h
    obtain ⟨-, -, hmac, hip, -, -⟩ := etharpPacket_fields (netifs i).hwaddr ethbroadcast
      (netifs i).hwaddr (netifs i).ipAddr ethzero a arpRequest []
    rw [List.append_nil] at hmac hip
    exact ⟨le_rfl, i, hip.symm, hmac.symm⟩
  | heard _ _ => exact h.elim
  | tick => exact h.elim
  | _ => trivial

theorem NetInv.op_right (h : NetInv netifs net) {i : ι} {op : ArpOp} (hop : ∀ p, op ≠ .input p) :
    ∀ ev ∈ (op.run (netifs i) (net i)).log, ev.Right netifs := by
  have hextends {s : Etharp} (hs : Extends (ArpEvent.Local (netifs i) fun _ _ => True) (net i) s) :
      ∀ ev ∈ s.log, ev.Right netifs := by
    obtain ⟨new, hlog, hnew⟩ := hs
    rw [hlog]
    intro ev hev
    exact (List.mem_append.mp hev).elim (fun hev => right_of_local (hnew ev hev)) (h.right i ev)
  cases op with
  | tmr =>
    obtain ⟨new, hlog, hnew⟩ := Extends.foldl (extends_tmrEntry (netifs i) fun _ _ => True)
      (List.finRange arpTableSize) ((net i).emit .tick)
    intro ev hev
    rw [show (ArpOp.run (netifs i) (net i) .tmr).log = new ++ .tick :: (net i).log from hlog] at hev
    rcases List.mem_append.mp hev with hev | hev
    · exact right_of_local (hnew ev hev)
    · rcases List.mem_cons.mp hev with rfl | hev
      · trivial
      · exact h.right i ev hev
  | input p => exact absurd rfl (hop p)
  | output q ipaddr room => exact hextends (extends_output (netifs i) _ (fun _ _ => trivial) room _)
  | query ipaddr q room => exact hextends (extends_query (netifs i) _ (fun _ _ => trivial) room _)
  | gratuitous room => exact hextends (extends_request (netifs i) _ _ room _)
  | cleanup => exact hextends (extends_cleanup (netifs i) _ _)

/-- An ARP packet that arrives was sent as one: its sender speaks for itself. -/
theorem sender_owned {i : ι} {ev : ArpEvent} {frame padding : List U8} {q : Piece} {rest : List Piece}
    (hright : ev.Right netifs) (hframe : ev.frame (netifs i) = some frame)
    (hp : chainBytes (q :: rest) = frame ++ padding) (hlen : sizeofEtharpPacket ≤ q.bytes.length)
    (htype : ethType q.bytes = htons ethtypeArp) :
    Owned netifs (sipaddr q.bytes) (shwaddr q.bytes) := by
  have hchain : chainBytes (q :: rest) = q.bytes ++ chainBytes rest := List.flatMap_cons
  obtain ⟨htype', -, hmac, hip, -, -⟩ := fields_append hlen (chainBytes rest)
  rw [← hchain, hp] at htype' hmac hip
  have hnot (dst : EthAddr) (data : List U8) (h : frame = ipFrame (netifs i) dst data) : False := by
    have hip : ethType (frame ++ padding) = htons ethtypeIp := by
      rw [h]
      exact low_high_eq _
    rw [htype', htype] at hip
    exact absurd hip (by decide)
  cases ev with
  | arp f =>
    obtain rfl := Option.some.inj hframe
    obtain ⟨hlong, howned⟩ := hright
    obtain ⟨-, -, hmac', hip', -, -⟩ := fields_append hlong padding
    rw [← hmac, ← hip, hmac', hip']
    exact howned
  | group a dst data => exact (hnot dst data (Option.some.inj hframe).symm).elim
  | pass a dst data => exact (hnot dst data (Option.some.inj hframe).symm).elim
  | flush a dst data => exact (hnot dst data (Option.some.inj hframe).symm).elim
  | _ => nomatch hframe

theorem stations_call [DecidableEq ι] (netifs : ι → EtharpNetif) (calls : ι → List ArpOp) (i : ι)
    (op : ArpOp) : stations netifs (Function.update calls i (calls i ++ [op])) =
      Function.update (stations netifs calls) i (op.run (netifs i) (stations netifs calls i)) := by
  funext j
  by_cases hj : j = i
  · subst hj
    rw [stations, Function.update_self, Function.update_self, runs, List.foldl_append]
    rfl
  · rw [stations, Function.update_of_ne hj, Function.update_of_ne hj]
    rfl

theorem NetInv.step [DecidableEq ι] {calls calls' : ι → List ArpOp}
    (h : NetInv netifs (stations netifs calls)) (hstep : NetStep netifs calls calls') :
    NetInv netifs (stations netifs calls') := by
  have hupdate (i : ι) (s : Etharp) (hs : Sound (netifs i) s) (hright : ∀ ev ∈ s.log, ev.Right netifs) :
      NetInv netifs (Function.update (stations netifs calls) i s) := by
    constructor <;> intro j <;> by_cases hj : j = i
    · subst hj
      simpa only [Function.update_self] using hs
    · simpa only [Function.update_of_ne hj] using h.sound j
    · subst hj
      simpa only [Function.update_self] using hright
    · simpa only [Function.update_of_ne hj] using h.right j
  cases hstep with
  | call i op hop =>
    rw [stations_call]
    exact hupdate i _ ((h.sound i).op op) (h.op_right hop)
  | deliver i p frame padding hsent hp =>
    obtain ⟨j, ev, hev, hframe⟩ := hsent
    rw [stations_call]
    refine hupdate i _ ((h.sound i).op _) ?_
    obtain ⟨new, hlog, hnew⟩ := extends_ethernetInput (netifs i) p (stations netifs calls i)
    intro ev' hev'
    rw [show ((ArpOp.input p).run (netifs i) (stations netifs calls i)).log =
      new ++ (stations netifs calls i).log from hlog] at hev'
    rcases List.mem_append.mp hev' with hev' | hev'
    · rcases hnew ev' hev' with hlocal | ⟨q, rest, rfl, hlen, htype, rfl | rfl⟩
      · exact right_of_local hlocal
      · exact sender_owned (h.right j ev hev) hframe hp hlen htype
      · obtain ⟨hlong, -, -, hmac, hip, -, -⟩ := replyPacket_fields (netifs i) hlen
        have hreply : sizeofEtharpPacket ≤ (replyPacket (netifs i) q.bytes).length := by
          rw [hlong]
          exact hlen
        obtain ⟨-, -, hmac', hip', -, -⟩ := fields_append hreply (chainBytes rest)
        refine ⟨hreply.trans (by rw [List.length_append]; omega), i, ?_, ?_⟩
        · rw [hip', hip]
        · rw [hmac', hmac]
    · exact h.right i ev' hev'

theorem NetReachable.inv [DecidableEq ι] {calls : ι → List ArpOp} (h : NetReachable netifs calls) :
    NetInv netifs (stations netifs calls) := by
  induction h with
  | refl => exact ⟨fun i => sound_start _, fun _ _ hev => absurd hev List.not_mem_nil⟩
  | tail _ hstep ih => exact ih.step hstep

theorem heard_of_heardOf {a : U32} {m : EthAddr} {k : ℕ} {log : List ArpEvent}
    (h : heardOf a log = some (m, k)) : .heard a m ∈ log := by
  induction log generalizing k with
  | nil => nomatch h
  | cons ev log ih =>
    cases ev with
    | heard b m' =>
      rw [heardOf] at h
      split_ifs at h with hb
      · obtain ⟨rfl, -⟩ := Prod.mk.inj (Option.some.inj h)
        exact hb ▸ List.mem_cons_self
      · exact List.mem_cons_of_mem _ (ih h)
    | tick =>
      obtain ⟨⟨m', j⟩, hj, heq⟩ := Option.map_eq_some_iff.mp h
      obtain ⟨rfl, -⟩ := Prod.mk.inj heq
      exact List.mem_cons_of_mem _ (ih hj)
    | _ => exact List.mem_cons_of_mem _ (ih h)

theorem heardOf_of_sent {log : List ArpEvent} (h : Truthful log) {a : U32} {m : EthAddr} {p : List U8}
    (hev : .pass a m p ∈ log ∨ .flush a m p ∈ log) : .heard a m ∈ log := by
  induction log with
  | nil => simp at hev
  | cons ev log ih =>
    have hrest (hlog : Truthful log) (hev : .pass a m p ∈ log ∨ .flush a m p ∈ log) :
        ArpEvent.heard a m ∈ ev :: log := List.mem_cons_of_mem _ (ih hlog hev)
    simp only [List.mem_cons] at hev
    cases ev with
    | pass b m' p' =>
      obtain ⟨⟨k, -, hk⟩, hlog⟩ := h
      rcases hev with (heq | hev) | (heq | hev)
      · injection heq with hb hm
        subst hb hm
        exact List.mem_cons_of_mem _ (heard_of_heardOf hk)
      · exact hrest hlog (.inl hev)
      · nomatch heq
      · exact hrest hlog (.inr hev)
    | flush b m' p' =>
      obtain ⟨⟨k, -, hk⟩, hlog⟩ := h
      rcases hev with (heq | hev) | (heq | hev)
      · nomatch heq
      · exact hrest hlog (.inl hev)
      · injection heq with hb hm
        subst hb hm
        exact List.mem_cons_of_mem _ (heard_of_heardOf hk)
      · exact hrest hlog (.inr hev)
    | _ =>
      rcases hev with (heq | hev) | (heq | hev)
      · nomatch heq
      · exact hrest h (.inl hev)
      · nomatch heq
      · exact hrest h (.inr hev)

/-- What the stations believe and do with it: a packet that is sent with an entry was meant for the
next hop `a`, and goes to the station that has this address. -/
structure Agreement (netifs : ι → EtharpNetif) (calls : ι → List ArpOp) : Prop where
  table : ∀ i slot, ((stations netifs calls i).arpTable slot).state.resolved = true →
    Owned netifs ((stations netifs calls i).arpTable slot).ipaddr
      ((stations netifs calls i).arpTable slot).ethaddr
  sent : ∀ i a m p, .pass a m p ∈ (stations netifs calls i).log ∨
    .flush a m p ∈ (stations netifs calls i).log →
      (∃ op ∈ calls i, op.Aims (netifs i) a p) ∧ Owned netifs a m

/-- Whatever frames are lost, repeated, delayed and overtaken, no table ever maps the address of
one station to another, and no packet is sent to a station that its next hop is not. -/
theorem arp_agreement [DecidableEq ι] {calls : ι → List ArpOp} (h : NetReachable netifs calls) :
    Agreement netifs calls := by
  have hinv := h.inv
  refine ⟨fun i slot hres => ?_, fun i a m p hev => ⟨?_, ?_⟩⟩
  · exact hinv.right i _ (heard_of_heardOf (((hinv.sound i).entry slot).known hres id))
  · exact aimed_runs (netifs i) (calls i) hev
  · exact hinv.right i _ (heardOf_of_sent (hinv.sound i).truthful hev)

end

def sampleNetifs : Bool → EtharpNetif
  | true => sampleStation
  | false => sampleHost

/-- The station asks for the address of the host, sends the packet that waited when the reply
arrives, and sends the next one at once. -/
def exchangeCalls : Bool → List ArpOp
  | true => [.output ⟨[1, 2], false⟩ sampleHost.ipAddr sampleRoom, .input [sampleReply],
      .output ⟨[3], false⟩ sampleHost.ipAddr sampleRoom]
  | false => [.input [sampleRequest]]

theorem exchangeCalls_reachable : NetReachable sampleNetifs exchangeCalls := by
  have hasked : NetReachable sampleNetifs _ := .single (.call (fun _ => []) true
    (.output ⟨[1, 2], false⟩ sampleHost.ipAddr sampleRoom) fun _ => nofun)
  have hanswered := hasked.tail (.deliver _ false [sampleRequest] sampleRequest.bytes []
    ⟨true, .arp sampleRequest.bytes, by decide, rfl⟩ rfl)
  have hheard := hanswered.tail (.deliver _ true [sampleReply] sampleReply.bytes []
    ⟨false, .arp sampleReply.bytes, by decide, rfl⟩ rfl)
  have hsent := hheard.tail (.call _ true (.output ⟨[3], false⟩ sampleHost.ipAddr sampleRoom)
    fun _ => nofun)
  refine (congrArg (NetReachable sampleNetifs) (funext fun b => ?_)).mp hsent
  cases b <;> rfl

theorem arp_agreement_sample :
    .flush sampleHost.ipAddr sampleHost.hwaddr [1, 2] ∈ (stations sampleNetifs exchangeCalls true).log ∧
      .pass sampleHost.ipAddr sampleHost.hwaddr [3] ∈ (stations sampleNetifs exchangeCalls true).log ∧
        Agreement sampleNetifs exchangeCalls :=
  ⟨by decide, by decide, arp_agreement exchangeCalls_reachable⟩

end EnvirMonitor.Arp
