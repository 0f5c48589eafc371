import Vpsim.Connect.Mesh
import Vpsim.Lib.Keeps

/-!
# Latency of the packets of a contention interval

`ComputePacketLatency` follows each packet along its route. At each router the packet waits for the
packet before it in the output buffer, and for the packets that block this one in front of the next
router. The map of an output buffer is used through iterators, which are kept here as places in the
order of the ids: the place after the last one is the end, and no place comes before the first.
-/

namespace Vpsim.Connect

open Vpsim.Lib

/-- `NULL_PACKET`. -/
def nullPacket : ℕ := countSize - 1

/-- What `ComputePacketLatency` carries from router to router for one packet. -/
structure PacketWait where
  totalWait : ℕ
  prevPkt : ℕ
  prevWait : ℕ
deriving DecidableEq, Repr

/-- At the beginning of a route. -/
def PacketWait.start : PacketWait := ⟨0, nullPacket, 0⟩

/-- `mBufferSize*mVirtualChannels`. -/
def bufferFlits (c : NocConfig) : ℕ := c.bufferSize * c.virtualChannels % idxSize

/-- How many places `it1` is in front of `it`. -/
def placesBack (c : NocConfig) : ℕ := if 1 < c.bufferSize then (bufferFlits c + idxSize - 1) % idxSize else 0

/-- The hop of the next router in `packetBuffer[prev_pkt-1]`, when iterators can reach it. -/
def hopAfter (buffer : List Packet) (prevPkt : ℕ) (hop : Hop) : Except NocFault Hop :=
  match buffer[(prevPkt + (countSize - 1)) % countSize]? with
  | none => .error .outOfRange
  | some packet =>
    match packet.path.dropWhile fun h => h ≠ hop with
    | _ :: onward :: _ => .ok onward
    | _ => .error .pastEnd

/-- The packet `back` places in front of another one in an output buffer. -/
def packetBefore (ids : List ℕ) (id back : ℕ) : Except NocFault ℕ :=
  if ids.idxOf id < back then .error .beforeBegin
  else match ids[ids.idxOf id - back]? with
    | none => .error .pastEnd
    | some before => .ok before

/-- A step whose result is already known. -/
def ofExcept {α : Type} : Except NocFault α → NocM α
  | .ok a => return a
  | .error e => throw e

/-- It leaves the state alone. -/
theorem ofExcept_spec {α : Type} (x : Except NocFault α) (s : NocState) :
    wp (ofExcept x) (fun _ s' => s' = s) (fun _ _ => True) s := by
  cases x with
  | ok a => exact rfl
  | error e => exact trivial

/-- Store the waiting time of a packet in an output buffer. -/
def setWait (hop : Hop) (id wait : ℕ) : NocM PUnit :=
  modify fun s => { s with noc := Function.update s.noc hop ((s.noc hop).set id wait) }

/-- Read the waiting time of a packet with `operator[]`, which inserts an id that is not there. -/
def readWait (hop : Hop) (id : ℕ) : NocM ℕ := do
  modify fun s => { s with noc := Function.update s.noc hop ((s.noc hop).insert id 0) }
  return ((← get).noc hop |>.find id).getD 0

/-- Count a waiting time at a router. -/
def addRouterLatency (c : NocConfig) (hop : Hop) (wait : ℕ) : NocM PUnit :=
  if routerIndex c hop.pos < routers c then
    modify fun s => { s with
      routerTotalLatency := Function.update s.routerTotalLatency (routerIndex c hop.pos)
        (s.routerTotalLatency (routerIndex c hop.pos) + wait) }
  else throw .outOfRange

/-- Head of line blocking: the wait for the packets that block the previous packet in front of its
next router, when this is not the next router of the packet. -/
def headOfLine (c : NocConfig) (id : ℕ) (hop : Hop) (rest : Route) (l : PacketWait) : NocM PacketWait := do
  let onward ← ofExcept (hopAfter (← get).packetBuffer l.prevPkt hop)
  match rest with
  | [] => throw .pastEnd
  | next :: _ =>
    if next ≠ onward ∧ bufferFlits c ≤ ((← get).noc onward).keys.idxOf l.prevPkt then
      let before ← ofExcept (packetBefore ((← get).noc hop).keys l.prevPkt (placesBack c))
      let wait ← readWait onward before
      let own ← readWait hop id
      setWait hop id (own + wait)
      addRouterLatency c hop wait
      return { l with totalWait := l.totalWait + wait }
    else return l

/-- The wait behind the previous packet of the output buffer: none if the two were serialized at an
earlier router and its waiting time has not changed. -/
def waitBehind (c : NocConfig) (l : PacketWait) (prevPkt prevWait size : ℕ) : ℕ :=
  if prevPkt = l.prevPkt then (if prevWait = l.prevWait then 0 else prevWait) else c.queueWaitingTime prevWait size

/-- One router on the route of a packet. -/
def passRouter (c : NocConfig) (id : ℕ) (hop : Hop) (rest : Route) (l : PacketWait) : NocM PacketWait := do
  let buffer := (← get).noc hop
  match buffer.entries with
  | [] => throw .pastEnd
  | first :: _ =>
    if id = first.1 then
      setWait hop id 0
      addRouterLatency c hop 0
      return l
    else
      let prevPkt ← ofExcept (packetBefore buffer.keys id 1)
      let prevWait := (buffer.find prevPkt).getD 0
      let wait := waitBehind c l prevPkt prevWait buffer.entries.length
      setWait hop id wait
      addRouterLatency c hop wait
      let prevWait := if prevPkt = l.prevPkt then l.prevWait else prevWait
      if hop.port = .toLocal then return ⟨l.totalWait + wait, prevPkt, prevWait⟩
      else headOfLine c id hop rest ⟨l.totalWait + wait, prevPkt, prevWait⟩

/-- The routers of a route one after the other. -/
def packetRoute (c : NocConfig) (id : ℕ) : Route → PacketWait → NocM PacketWait
  | [], l => return l
  | hop :: rest, l => do packetRoute c id rest (← passRouter c id hop rest l)

/-- `PacketLatency`. -/
def packetLatency (totalWait routerLatency linkLatency hops : ℕ) : ℕ :=
  hops * routerLatency + (hops + 1) * linkLatency + totalWait

/-- The round of `ComputePacketLatency` for one packet. -/
def addPacket (c : NocConfig) (total : ℕ) (packet : Packet) : NocM ℕ := do
  let l ← packetRoute c packet.id packet.path .start
  let latency := packetLatency l.totalWait c.routerLatency c.linkLatency packet.path.length
  modify fun s => { s with packetLatency := latency }
  return total + latency

/-- `ComputePacketLatency`: the sum of the latencies of the packets. -/
def computePacketLatency (c : NocConfig) : NocM ℕ := do
  (← get).packetBuffer.foldlM (addPacket c) 0

/-- A relation that the changes of waiting times and latencies keep. -/
structure WaitStepsKeep (c : NocConfig) (R : NocState → NocState → Prop) : Prop where
  setWait : ∀ hop id wait, Keeps R (setWait hop id wait)
  readWait : ∀ hop id, Keeps R (readWait hop id)
  addRouterLatency : ∀ hop wait, Keeps R (addRouterLatency c hop wait)
  setLatency : ∀ latency, Keeps R (modify fun s => { s with packetLatency := latency } : NocM PUnit)

section Keep

variable {c : NocConfig} {R : NocState → NocState → Prop} [IsPreorder NocState R]

/-- A result that is known already leaves the state alone. -/
theorem keeps_ofExcept {α : Type} (x : Except NocFault α) : Keeps R (ofExcept x) := by
  cases x with
  | ok a => exact Keeps.pure a
  | error e => exact Keeps.throw e

/-- Head of line blocking keeps the relation. -/
theorem WaitStepsKeep.headOfLine (h : WaitStepsKeep c R) (id : ℕ) (hop : Hop) (rest : Route) (l : PacketWait) :
    Keeps R (headOfLine c id hop rest l) := by
  apply Keeps.getBind
  intro s
  apply (keeps_ofExcept _).bind
  intro onward
  cases rest with
  | nil => exact Keeps.throw _
  | cons next rest =>
    apply Keeps.getBind
    intro s
    apply Keeps.ite
    · intro _
      apply Keeps.getBind
      intro s
      apply (keeps_ofExcept _).bind
      intro before
      apply (h.readWait _ _).bind
      intro wait
      apply (h.readWait _ _).bind
      intro own
      apply (h.setWait _ _ _).bind
      intro _
      exact (h.addRouterLatency _ _).bind fun _ => Keeps.pure _
    · exact fun _ => Keeps.pure _

/-- Passing a router keeps the relation. -/
theorem WaitStepsKeep.passRouter (h : WaitStepsKeep c R) (id : ℕ) (hop : Hop) (rest : Route) (l : PacketWait) :
    Keeps R (passRouter c id hop rest l) := by
  apply Keeps.getBind
  intro s
  dsimp only
  split
  · exact Keeps.throw _
  · apply Keeps.ite
    · intro _
      apply (h.setWait _ _ _).bind
      intro _
      exact (h.addRouterLatency _ _).bind fun _ => Keeps.pure _
    · intro _
      apply (keeps_ofExcept _).bind
      intro prevPkt
      apply (h.setWait _ _ _).bind
      intro _
      apply (h.addRouterLatency _ _).bind
      intro _
      apply Keeps.ite
      · exact fun _ => Keeps.pure _
      · exact fun _ => h.headOfLine id hop rest _

/-- Following a packet keeps the relation. -/
theorem WaitStepsKeep.packetRoute (h : WaitStepsKeep c R) (id : ℕ) (path : Route) (l : PacketWait) :
    Keeps R (packetRoute c id path l) := by
  induction path generalizing l with
  | nil => exact Keeps.pure _
  | cons hop rest ih => exact (h.passRouter id hop rest l).bind ih

/-- The rounds for some packets keep the relation. -/
theorem WaitStepsKeep.foldlM_addPacket (h : WaitStepsKeep c R) (packets : List Packet) (total : ℕ) :
    Keeps R (packets.foldlM (addPacket c) total) := by
  induction packets generalizing total with
  | nil => exact Keeps.pure _
  | cons packet packets ih =>
    have hfirst : Keeps R (addPacket c total packet) := by
      apply (h.packetRoute _ _ _).bind
      intro l
      exact (h.setLatency _).bind fun _ => Keeps.pure _
    exact hfirst.bind ih

/-- The whole computation keeps what its steps keep. -/
theorem WaitStepsKeep.computePacketLatency (h : WaitStepsKeep c R) : Keeps R (computePacketLatency c) :=
  Keeps.getBind fun s => h.foldlM_addPacket s.packetBuffer 0

end Keep

/-- A change of waiting times and latencies. -/
def ChangesWaits (s s' : NocState) : Prop :=
  ∃ noc latencies latency,
    s' = { s with noc := noc, routerTotalLatency := latencies, packetLatency := latency }

instance : IsPreorder NocState ChangesWaits where
  refl s := ⟨s.noc, s.routerTotalLatency, s.packetLatency, rfl⟩
  trans s₁ s₂ s₃ h h' := by
    obtain ⟨_, _, _, rfl⟩ := h
    obtain ⟨noc, latencies, latency, rfl⟩ := h'
    exact ⟨noc, latencies, latency, rfl⟩

/-- The computation changes nothing but waiting times and latencies. -/
theorem changesWaits_computePacketLatency (c : NocConfig) : Keeps ChangesWaits (computePacketLatency c) := by
  apply WaitStepsKeep.computePacketLatency
  constructor
  · exact fun _ _ _ => Keeps.modify fun s => ⟨_, s.routerTotalLatency, s.packetLatency, rfl⟩
  · intro hop id
    apply Keeps.bind
    · exact Keeps.modify fun s => ⟨_, s.routerTotalLatency, s.packetLatency, rfl⟩
    · exact fun _ => Keeps.getBind fun _ => Keeps.pure _
  · intro hop wait
    apply Keeps.ite
    · exact fun _ => Keeps.modify fun s => ⟨s.noc, _, s.packetLatency, rfl⟩
    · exact fun _ => Keeps.throw _
  · exact fun _ => Keeps.modify fun s => ⟨s.noc, s.routerTotalLatency, _, rfl⟩

end Vpsim.Connect
