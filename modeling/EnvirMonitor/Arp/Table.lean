import EnvirMonitor.Arp.Frames

/-! The ARP table of `etharp.c`, one packet waiting in each pending entry, and every function of
the file that the firmware is built with. -/

namespace EnvirMonitor.Arp
open Machine Lwip

def arpTableSize : ℕ := 10
def arpMaxage : U8 := 240
def arpAgeRerequestUsed : U8 := arpMaxage - 12
def arpMaxpending : U8 := 2
def etharpFlagTryHard : U8 := 1
def etharpFlagFindOnly : U8 := 2

inductive EtharpState
  | empty
  | pending
  | stable
  | stableRerequesting
  deriving DecidableEq

/-- `state >= ETHARP_STATE_STABLE` -/
def EtharpState.resolved : EtharpState → Bool
  | empty => false
  | pending => false
  | stable => true
  | stableRerequesting => true

structure EtharpEntry where
  q : Option (List U8)
  ipaddr : U32
  /-- The interface of the firmware, or NULL. -/
  netif : Bool
  ethaddr : EthAddr
  state : EtharpState
  ctime : U8

abbrev Slot := Fin arpTableSize

instance : NeZero arpTableSize := ⟨by decide⟩

/-- A packet for `etharp_output`: the bytes behind the Ethernet header, and whether every buffer
of its chain is a `PBUF_ROM`. -/
structure Packet where
  data : List U8
  rom : Bool
  deriving DecidableEq

/-- Which requests for memory succeed during a call. -/
structure Room where
  /-- `pbuf_header` in `etharp_output` -/
  header : Bool
  /-- `pbuf_alloc` in `etharp_raw` -/
  request : Bool
  /-- `pbuf_alloc` of the copy in `etharp_query` -/
  copy : Bool

inductive ErrT
  | ok
  | mem
  | buf
  | rte
  | arg
  deriving DecidableEq

/-- What the functions do to packets and to the link; `heard` and `tick` mark the arrival of the
addresses of a sender and the calls of `etharp_tmr`. -/
inductive ArpEvent
  | arp (frame : List U8)
  /-- `etharp_send_ip` to a broadcast or multicast address. -/
  | group (ipaddr : U32) (dst : EthAddr) (q : List U8)
  /-- `etharp_send_ip` of a packet for `ipaddr`, with the hardware address of an entry. -/
  | pass (ipaddr : U32) (dst : EthAddr) (q : List U8)
  /-- A packet for `ipaddr` is queued. -/
  | hold (ipaddr : U32) (p : List U8)
  /-- `etharp_send_ip` and `pbuf_free` of a queued packet. -/
  | flush (ipaddr : U32) (dst : EthAddr) (p : List U8)
  /-- `pbuf_free` of a queued packet. -/
  | drop (ipaddr : U32) (p : List U8)
  | heard (ipaddr : U32) (ethaddr : EthAddr)
  | tick
  deriving DecidableEq

/-- `arp_table` and `etharp_cached_entry`, with the events so far, the last one first. -/
structure Etharp where
  arpTable : Slot → EtharpEntry
  cachedEntry : Slot
  log : List ArpEvent

def Etharp.emit (s : Etharp) (ev : ArpEvent) : Etharp := { s with log := ev :: s.log }

def Etharp.setEntry (s : Etharp) (i : Slot) (e : EtharpEntry) : Etharp :=
  { s with arpTable := Function.update s.arpTable i e }

def emptyEntry : EtharpEntry := ⟨none, 0, false, ethzero, .empty, 0⟩

def Etharp.start : Etharp := ⟨fun _ => emptyEntry, 0, []⟩

/-- `etharp_free_entry`, which `LWIP_DEBUG` makes clean out the complete entry. -/
def etharpFreeEntry (i : Slot) (s : Etharp) : Etharp :=
  let s' := match (s.arpTable i).q with
    | some p => s.emit (.drop (s.arpTable i).ipaddr p)
    | none => s
  s'.setEntry i emptyEntry

def etharpTmrEntry (s : Etharp) (i : Slot) : Etharp :=
  let e := s.arpTable i
  if e.state = .empty then s
  else
    let e := { e with ctime := e.ctime + 1 }
    let s := s.setEntry i e
    if arpMaxage ≤ e.ctime ∨ e.state = .pending ∧ arpMaxpending ≤ e.ctime then etharpFreeEntry i s
    else if e.state = .stableRerequesting then s.setEntry i { e with state := .stable }
    else s

def etharpTmr (s : Etharp) : Etharp := (List.finRange arpTableSize).foldl etharpTmrEntry (s.emit .tick)

/-! ## `etharp_find_entry` -/

structure Candidates where
  empty : Option Slot
  oldPending : Option Slot
  oldStable : Option Slot
  oldQueue : Option Slot
  agePending : U8
  ageStable : U8
  ageQueue : U8

def Candidates.start : Candidates := ⟨none, none, none, none, 0, 0, 0⟩

def Candidates.remember (c : Candidates) (i : Slot) (e : EtharpEntry) : Candidates :=
  if e.state = .pending then
    if e.q.isSome then
      if c.ageQueue ≤ e.ctime then { c with oldQueue := some i, ageQueue := e.ctime } else c
    else if c.agePending ≤ e.ctime then { c with oldPending := some i, agePending := e.ctime }
    else c
  else if c.ageStable ≤ e.ctime then { c with oldStable := some i, ageStable := e.ctime }
  else c

def sweep (arpTable : Slot → EtharpEntry) (ipaddr : U32) : List Slot → Candidates → Slot ⊕ Candidates
  | [], c => .inr c
  | i :: is, c =>
    let e := arpTable i
    if e.state = .empty then
      sweep arpTable ipaddr is (if c.empty.isNone then { c with empty := some i } else c)
    else if ipaddr = e.ipaddr then .inl i
    else sweep arpTable ipaddr is (c.remember i e)

def Candidates.recycle (c : Candidates) : Option Slot := c.oldStable <|> c.oldPending <|> c.oldQueue

/-- The end of `etharp_find_entry`, at an empty entry. -/
def Etharp.create (s : Etharp) (i : Slot) (ipaddr : U32) : Etharp :=
  s.setEntry i { s.arpTable i with ipaddr := ipaddr, ctime := 0 }

def etharpFindEntry (ipaddr : U32) (flags : U8) (s : Etharp) : Etharp × Option Slot :=
  match sweep s.arpTable ipaddr (List.finRange arpTableSize) .start with
  | .inl i => (s, some i)
  | .inr c =>
    if flags &&& etharpFlagFindOnly ≠ 0 ∨ c.empty.isNone ∧ flags &&& etharpFlagTryHard = 0 then
      (s, none)
    else
      match c.empty with
      | some i => (s.create i ipaddr, some i)
      | none =>
        match c.recycle with
        | some i => ((etharpFreeEntry i s).create i ipaddr, some i)
        | none => (s, none)

/-! ## Addresses and requests -/

def nonUnicast (netif : EtharpNetif) (ipaddr : U32) : Bool :=
  ipaddr == 0 || ipAddrIsbroadcast ipaddr netif.toNetif || ipAddrIsmulticast ipaddr

def etharpUpdateArpEntry (netif : EtharpNetif) (ipaddr : U32) (ethaddr : EthAddr) (flags : U8)
    (s : Etharp) : Etharp × ErrT :=
  if nonUnicast netif ipaddr then (s, .arg)
  else
    match etharpFindEntry ipaddr flags s with
    | (s, none) => (s, .mem)
    | (s, some i) =>
      let e := s.arpTable i
      let s := s.setEntry i
        { e with state := .stable, netif := true, ethaddr := ethaddr, ctime := 0, q := none }
      match e.q with
      | some p => (s.emit (.flush e.ipaddr ethaddr p), .ok)
      | none => (s, .ok)

/-- `etharp_request`, with the `etharp_raw` that it calls; `low_level_output` returns `ERR_OK`. -/
def etharpRequest (netif : EtharpNetif) (ipaddr : U32) (room : Bool) (s : Etharp) : Etharp × ErrT :=
  if room then (s.emit (.arp (requestPacket netif ipaddr)), .ok) else (s, .mem)

def etharpCleanupEntry (s : Etharp) (i : Slot) : Etharp :=
  if (s.arpTable i).state ≠ .empty ∧ (s.arpTable i).netif = true then etharpFreeEntry i s else s

def etharpCleanupNetif (s : Etharp) : Etharp :=
  (List.finRange arpTableSize).foldl etharpCleanupEntry s

/-! ## Packets that arrive -/

def forUs (netif : EtharpNetif) (bs : List U8) : Bool :=
  netif.ipAddr != 0 && dipaddr bs == netif.ipAddr

def inputFlags (netif : EtharpNetif) (bs : List U8) : U8 :=
  if forUs netif bs then etharpFlagTryHard else etharpFlagFindOnly

/-- `etharp_arp_input`, of a chain whose first buffer is the given one. -/
def etharpArpInput (netif : EtharpNetif) (q : Piece) (rest : List Piece) (s : Etharp) : Etharp :=
  if q.bytes.length < sizeofEtharpPacket then s
  else if !headerRight q.bytes then s
  else
    let s := s.emit (.heard (sipaddr q.bytes) (shwaddr q.bytes))
    let s := (etharpUpdateArpEntry netif (sipaddr q.bytes) (shwaddr q.bytes)
      (inputFlags netif q.bytes) s).1
    if opcode q.bytes = htons arpRequest ∧ forUs netif q.bytes then
      s.emit (.arp (replyPacket netif q.bytes ++ chainBytes rest))
    else s

inductive EthernetInput
  | drop
  | arp
  | ip (p : List Piece)

def ethernetInput (netif : EtharpNetif) (p : List Piece) (s : Etharp) : Etharp × EthernetInput :=
  match p with
  | [] => (s, .drop)
  | q :: rest =>
    if q.bytes.length ≤ sizeofEthHdr then (s, .drop)
    else if ethType q.bytes = htons ethtypeIp then
      (s, .ip (⟨q.payload + BitVec.ofNat 32 sizeofEthHdr, q.bytes.drop sizeofEthHdr⟩ :: rest))
    else if ethType q.bytes = htons ethtypeArp then (etharpArpInput netif q rest s, .arp)
    else (s, .drop)

/-! ## Packets that leave -/

/-- `dstAddr` is the next hop of the packet, which only the event names. -/
def etharpOutputToArpIndex (netif : EtharpNetif) (q : Packet) (dstAddr : U32) (i : Slot) (room : Room)
    (s : Etharp) : Etharp × ErrT :=
  let e := s.arpTable i
  let s :=
    if e.state = .stable ∧ arpAgeRerequestUsed ≤ e.ctime then
      match etharpRequest netif e.ipaddr room.request s with
      | (s, .ok) => s.setEntry i { e with state := .stableRerequesting }
      | (s, _) => s
    else s
  (s.emit (.pass dstAddr e.ethaddr q.data), .ok)

/-- The packet for `ipaddr` waits in a pending entry, in the place of the one that waited there. -/
def Etharp.queue (s : Etharp) (i : Slot) (ipaddr : U32) (p : List U8) : Etharp :=
  let e := s.arpTable i
  let s := match e.q with
    | some old => s.emit (.drop e.ipaddr old)
    | none => s
  (s.setEntry i { e with q := some p }).emit (.hold ipaddr p)

def Etharp.markPending (s : Etharp) (i : Slot) : Etharp :=
  if (s.arpTable i).state = .empty then s.setEntry i { s.arpTable i with state := .pending } else s

def askEntry (netif : EtharpNetif) (ipaddr : U32) (q : Option Packet) (room : Room) (s : Etharp)
    (i : Slot) : Etharp × ErrT :=
  if (s.arpTable i).state = .pending ∨ q = none then etharpRequest netif ipaddr room.request s
  else (s, .mem)

def queryEntry (netif : EtharpNetif) (ipaddr : U32) (q : Option Packet) (room : Room) (s : Etharp)
    (i : Slot) : Etharp × ErrT :=
  let s := s.markPending i
  let asked := askEntry netif ipaddr q room s i
  match q with
  | none => asked
  | some q =>
    let s := asked.1
    if (s.arpTable i).state.resolved then
      ({ s with cachedEntry := i }.emit (.pass ipaddr (s.arpTable i).ethaddr q.data), .ok)
    else if (s.arpTable i).state = .pending then
      if q.rom || room.copy then (s.queue i ipaddr q.data, .ok) else (s, .mem)
    else asked

def etharpQuery (netif : EtharpNetif) (ipaddr : U32) (q : Option Packet) (room : Room) (s : Etharp) :
    Etharp × ErrT :=
  if nonUnicast netif ipaddr then (s, .arg)
  else
    match etharpFindEntry ipaddr etharpFlagTryHard s with
    | (s, none) => (s, .mem)
    | (s, some i) => queryEntry netif ipaddr q room s i

/-- The address to resolve for a unicast destination, if there is a route. -/
def nextHop (netif : EtharpNetif) (ipaddr : U32) : Option U32 :=
  let islinklocal := ipaddr &&& 0x0000FFFF == 0x0000FEA9
  if ipaddr &&& netif.netmask != netif.ipAddr &&& netif.netmask && !islinklocal then
    if netif.gw != 0 then some netif.gw else none
  else some ipaddr

def mcastaddr (ipaddr : U32) : EthAddr :=
  ⟨0x01, 0x00, 0x5e, byteAt (addressBytes ipaddr) 1 &&& 0x7f, byteAt (addressBytes ipaddr) 2,
    byteAt (addressBytes ipaddr) 3⟩

def Etharp.matchesStable (s : Etharp) (dstAddr : U32) (i : Slot) : Bool :=
  (s.arpTable i).state.resolved && dstAddr == (s.arpTable i).ipaddr

def etharpOutput (netif : EtharpNetif) (q : Packet) (ipaddr : U32) (room : Room) (s : Etharp) :
    Etharp × ErrT :=
  if !room.header then (s, .buf)
  else if ipAddrIsbroadcast ipaddr netif.toNetif then (s.emit (.group ipaddr ethbroadcast q.data), .ok)
  else if ipAddrIsmulticast ipaddr then (s.emit (.group ipaddr (mcastaddr ipaddr) q.data), .ok)
  else
    match nextHop netif ipaddr with
    | none => (s, .rte)
    | some dstAddr =>
      if s.matchesStable dstAddr s.cachedEntry then
        etharpOutputToArpIndex netif q dstAddr s.cachedEntry room s
      else
        match (List.finRange arpTableSize).find? (s.matchesStable dstAddr) with
        | some i => etharpOutputToArpIndex netif q dstAddr i room { s with cachedEntry := i }
        | none => etharpQuery netif dstAddr (some q) room s

end EnvirMonitor.Arp
