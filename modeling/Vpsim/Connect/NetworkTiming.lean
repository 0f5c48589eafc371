import Vpsim.Connect.MemoryControllers
import Vpsim.Connect.PacketLatency
import Vpsim.Connect.XYRouting

/-!
# The contention model

`NetworkTimingModel` sends the flits of a transaction to its destinations. The packets of an
interval are kept in the order of their arrival, and the first packet that arrives outside the
interval closes it: the latencies are computed and the packets are dropped.
-/

namespace Vpsim.Connect

open Vpsim.Lib

/-- The commands of a transaction. -/
inductive TlmCommand
  | read
  | write
  | ignore
deriving DecidableEq, Repr

/-- The fields of a transaction that the interconnect reads and sets. -/
structure Payload where
  command : TlmCommand
  address : ℕ
  dataLength : ℕ
deriving DecidableEq, Repr

/-- `SavePacket`. -/
def savePacket (id : ℕ) (path : Route) (nbFlits : ℕ) : NocM PUnit :=
  modify fun s => { s with
    packetBuffer := s.packetBuffer ++ (List.range nbFlits).map fun count => Packet.mk (flitId id count) path
    flitsInjected := s.flitsInjected + nbFlits }

/-- What the contention model does for each destination. -/
def sendFlits (c : NocConfig) (src : MeshPos) (nbFlits : ℕ) (dst : MeshPos) : NocM PUnit := do
  let id := ((← get).totalFlits + 1) % idxSize
  let path ← computeRouteAndUpdateRouters c src dst id nbFlits
  modify fun s => { s with totalDistance := s.totalDistance + nbFlits * path.length }
  savePacket id path nbFlits
  modify fun s => { s with totalFlits := s.totalFlits + nbFlits }

/-- Count the bytes read from or written to a memory controller. -/
def countAccess (trans : Payload) (index : ℕ) : NocM PUnit :=
  match trans.command with
  | .read => modify fun s => { s with
      readCount := Function.update s.readCount index (s.readCount index + trans.dataLength) }
  | .write => modify fun s => { s with
      writeCount := Function.update s.writeCount index (s.writeCount index + trans.dataLength) }
  | .ignore => return ⟨⟩

/-- `GetDestinations`. -/
def getDestinations (c : NocConfig) (trans : Payload) (isHome isIdMapped : Bool) (dstIds : List ℕ) :
    NocM (List MeshPos) := do
  if isIdMapped then
    ofExcept ((idTargets c dstIds).mapM (getNocPosById c))
  else if isHome then
    return [← ofExcept (getHomePosByAddress c trans.address)]
  else
    let (dstPos, index) ← ofExcept (controllerWithContention c trans.address)
    countAccess trans index
    return [dstPos]

/-- The source and the destinations of the flits. A device that reads gets them from the memory. -/
def endpoints (c : NocConfig) (trans : Payload) (isHome isIdMapped : Bool) (srcPos : MeshPos)
    (dstIds : List ℕ) (device : Bool) : NocM (MeshPos × List MeshPos) := do
  if device ∧ trans.command = .read then
    let (memPos, _) ← ofExcept (controllerWithContention c trans.address)
    return (memPos, [srcPos])
  else
    return (srcPos, ← getDestinations c trans isHome isIdMapped dstIds)

/-- Close the current interval. -/
def closeInterval (c : NocConfig) : NocM PUnit := do
  let latency ← computePacketLatency c
  modify fun s => { s with
    averageLatency := s.averageLatency + latency
    packetsCount := s.packetsCount + s.packetBuffer.length
    packetBuffer := []
    noc := fun _ => SortedMap.empty
    totalFlits := 0 }

/-- Start an interval. -/
def openInterval (c : NocConfig) (ts : ℕ) : NocM PUnit :=
  modify fun s => { s with intervalStart := ts, intervalEnd := ts + c.contentionInterval }

/-- The interval in which a packet arrives: the current one, or a new one. Without any flits the
current interval is started anew. -/
def enterInterval (c : NocConfig) (ts : ℕ) : NocM PUnit := do
  let s ← get
  if s.totalFlits = 0 then openInterval c ts
  else if s.intervalStart ≤ ts ∧ ts ≤ s.intervalEnd then return ⟨⟩
  else
    closeInterval c
    openInterval c ts

/-- `NetworkTimingModel`, with `mContentionInterval` for its interval as in every call. -/
def networkTimingModel (c : NocConfig) (trans : Payload) (timeStamp : ℕ) (isHome isIdMapped : Bool)
    (nbFlits : ℕ) (srcPos : MeshPos) (dstIds : List ℕ) (device : Bool) : NocM PUnit := do
  let (src, dest) ← endpoints c trans isHome isIdMapped srcPos dstIds device
  enterInterval c (c.toNanoseconds timeStamp)
  dest.forM (sendFlits c src nbFlits)

/-- The arguments of a call of `NetworkTimingModel`. -/
structure Transfer where
  trans : Payload
  timeStamp : ℕ
  isHome : Bool
  isIdMapped : Bool
  nbFlits : ℕ
  srcPos : MeshPos
  dstIds : List ℕ
  device : Bool

/-- One call. -/
def transfer (c : NocConfig) (t : Transfer) : NocM PUnit :=
  networkTimingModel c t.trans t.timeStamp t.isHome t.isIdMapped t.nbFlits t.srcPos t.dstIds t.device

/-- A change of the access counters of the memory controllers. -/
def CountsAccesses (s s' : NocState) : Prop :=
  ∃ reads writes, s' = { s with readCount := reads, writeCount := writes }

instance : IsPreorder NocState CountsAccesses where
  refl s := ⟨s.readCount, s.writeCount, rfl⟩
  trans s₁ s₂ s₃ h h' := by
    obtain ⟨_, _, rfl⟩ := h
    obtain ⟨reads, writes, rfl⟩ := h'
    exact ⟨reads, writes, rfl⟩

/-- Looking up the source and the destinations changes nothing but the access counters. -/
theorem keeps_endpoints {c : NocConfig} (trans : Payload) (isHome isIdMapped : Bool) (srcPos : MeshPos)
    (dstIds : List ℕ) (device : Bool) :
    Keeps CountsAccesses (endpoints c trans isHome isIdMapped srcPos dstIds device) := by
  have hcount : ∀ index, Keeps CountsAccesses (countAccess trans index) := by
    intro index
    unfold countAccess
    cases trans.command with
    | read => exact Keeps.modify fun s => ⟨_, s.writeCount, rfl⟩
    | write => exact Keeps.modify fun s => ⟨s.readCount, _, rfl⟩
    | ignore => exact Keeps.pure _
  apply Keeps.ite
  · intro _
    exact (keeps_ofExcept _).bind fun _ => Keeps.pure _
  · intro _
    apply Keeps.bind _ fun _ => Keeps.pure _
    apply Keeps.ite
    · exact fun _ => keeps_ofExcept _
    · intro _
      apply Keeps.ite
      · exact fun _ => (keeps_ofExcept _).bind fun _ => Keeps.pure _
      · intro _
        apply (keeps_ofExcept _).bind
        intro found
        exact (hcount _).bind fun _ => Keeps.pure _

/-- What sending the flits of a packet does: they are added to the packet buffer, and to the output
buffers of their route. -/
structure SendsFlits (c : NocConfig) (src dst : MeshPos) (nbFlits : ℕ) (s s' : NocState) : Prop where
  inRange : InRange c (routeHops src dst)
  packets : s'.packetBuffer = s.packetBuffer ++ (List.range nbFlits).map fun count =>
    Packet.mk (flitId ((s.totalFlits + 1) % idxSize) count) (routeHops src dst)
  mem_ids : ∀ hop k, k ∈ ids s' hop ↔ k ∈ ids s hop ∨
    (hop ∈ routeHops src dst ∧ ∃ count < nbFlits, k = flitId ((s.totalFlits + 1) % idxSize) count)
  totalFlits : s'.totalFlits = s.totalFlits + nbFlits
  flitsInjected : s'.flitsInjected = s.flitsInjected + nbFlits
  packetsCount : s'.packetsCount = s.packetsCount
  averageLatency : s'.averageLatency = s.averageLatency

/-- Sending the flits of a packet does what `SendsFlits` describes. -/
theorem sendFlits_spec {c : NocConfig} {s : NocState} (src dst : MeshPos) (nbFlits : ℕ) :
    wp (sendFlits c src nbFlits dst) (fun _ => SendsFlits c src dst nbFlits s) (fun _ _ => True) s := by
  apply wp.step
  apply wp.step
  cases hrun : computeRouteAndUpdateRouters c src dst ((s.totalFlits + 1) % idxSize) nbFlits s with
  | error e t =>
    unfold wp
    rw [hrun]
    trivial
  | ok path s₁ =>
    obtain ⟨rfl, hin, rfl⟩ := computeRouteAndUpdateRouters_eq_ok hrun
    unfold wp
    rw [hrun]
    refine ⟨hin, rfl, fun hop k => ?_, rfl, rfl, rfl, rfl⟩
    change k ∈ (updateBuffers _ nbFlits (routeHops src dst) s.noc hop).keys ↔ _
    rw [updateBuffers_routeHops]
    by_cases hhop : hop ∈ routeHops src dst
    · rw [if_pos hhop, mem_keys_insertFlits, or_comm]
      exact or_congr_right (and_iff_right hhop).symm
    · rw [if_neg hhop]
      exact (or_iff_left fun hmem => hhop hmem.1).symm

/-- What closing an interval does: the packets are dropped, and counted with their latency. -/
def ClosesInterval (s s' : NocState) : Prop :=
  ∃ average latencies last,
    s' = { s with
      averageLatency := average
      packetsCount := s.packetsCount + s.packetBuffer.length
      packetBuffer := []
      noc := fun _ => SortedMap.empty
      totalFlits := 0
      routerTotalLatency := latencies
      packetLatency := last }

/-- Closing an interval does what `ClosesInterval` describes. -/
theorem closeInterval_spec (c : NocConfig) (s : NocState) :
    wp (closeInterval c) (fun _ => ClosesInterval s) (fun _ _ => True) s := by
  apply wp.step
  apply (changesWaits_computePacketLatency c s).imp
  · intro latency s₁ ⟨noc, latencies, last, hs₁⟩
    rw [hs₁]
    exact ⟨_, latencies, last, rfl⟩
  · exact fun _ _ _ => trivial

/-- What the steps of a call before the sending of flits have to leave alone. -/
structure EntryKeeps (I : NocState → Prop) : Prop where
  counts : ∀ s s', CountsAccesses s s' → I s → I s'
  opens : ∀ s start stop, I s → I { s with intervalStart := start, intervalEnd := stop }
  closes : ∀ s s', ClosesInterval s s' → I s → I s'

/-- What the steps of a call have to leave alone. -/
structure TrafficKeeps (c : NocConfig) (I : NocState → Prop) : Prop extends EntryKeeps I where
  sends : ∀ src dst nbFlits s s', SendsFlits c src dst nbFlits s s' → I s → I s'

section Traffic

variable {c : NocConfig} {s : NocState} {I : NocState → Prop}

/-- Looking up the source and the destinations keeps the invariant. -/
theorem EntryKeeps.endpoints (h : EntryKeeps I) (trans : Payload) (isHome isIdMapped : Bool) (srcPos : MeshPos)
    (dstIds : List ℕ) (device : Bool) (hs : I s) :
    wp (Connect.endpoints c trans isHome isIdMapped srcPos dstIds device) (fun _ => I) (fun _ _ => True) s :=
  (keeps_endpoints trans isHome isIdMapped srcPos dstIds device s).imp
    (fun _ s' hcounts => h.counts s s' hcounts hs) fun _ _ _ => trivial

/-- Entering an interval keeps the invariant. -/
theorem EntryKeeps.enterInterval (h : EntryKeeps I) (ts : ℕ) (hs : I s) :
    wp (Connect.enterInterval c ts) (fun _ => I) (fun _ _ => True) s := by
  apply wp.step
  rw [wp_get]
  by_cases hempty : s.totalFlits = 0
  · exact wp.ite_pos hempty (h.opens s _ _ hs)
  · apply wp.ite_neg hempty
    by_cases hinside : s.intervalStart ≤ ts ∧ ts ≤ s.intervalEnd
    · exact wp.ite_pos hinside hs
    · apply wp.ite_neg hinside
      apply (closeInterval_spec c s).bind
      intro _ t hclosed
      exact h.opens t _ _ (h.closes s t hclosed hs)

/-- A call of the contention model keeps the invariant. -/
theorem TrafficKeeps.transfer (h : TrafficKeeps c I) (t : Transfer) (hs : I s) :
    wp (Connect.transfer c t) (fun _ => I) (fun _ _ => True) s := by
  apply (h.endpoints t.trans t.isHome t.isIdMapped t.srcPos t.dstIds t.device hs).bind
  intro ends s₁ h₁
  apply (h.enterInterval _ h₁).bind
  intro _ s₂ h₂
  refine wp_forM _ (fun _ => I) (fun dst _ s' hs' => ?_) h₂
  exact (sendFlits_spec ends.1 dst t.nbFlits).mono fun _ s'' hsent => h.sends _ _ _ s' s'' hsent hs'

/-- Any history of calls keeps the invariant. -/
theorem TrafficKeeps.forM (h : TrafficKeeps c I) {transfers : List Transfer} {s' : NocState}
    (hrun : transfers.forM (Connect.transfer c) s = .ok ⟨⟩ s') (hs : I s) : I s' :=
  (wp_forM (E := fun _ _ => True) (Connect.transfer c) (fun _ => I) (fun t _ _ ht => h.transfer t ht) hs).of_ok hrun

end Traffic

/-- Three routers in a row, with a cache at each. -/
def rowMesh (bufferSize : ℕ) : NocConfig :=
  { bareMesh 3 1 with
    isCoherent := true
    bufferSize := bufferSize
    cpuIDs := [(0, ⟨0, 0⟩), (1, ⟨1, 0⟩), (2, ⟨2, 0⟩)] }

/-- A message of some flits from a router to a cache. -/
def message (src : MeshPos) (nbFlits dst : ℕ) : Transfer where
  trans := ⟨.ignore, 0, 0⟩
  timeStamp := 1
  isHome := false
  isIdMapped := true
  nbFlits := nbFlits
  srcPos := src
  dstIds := [dst]
  device := false

end Vpsim.Connect
