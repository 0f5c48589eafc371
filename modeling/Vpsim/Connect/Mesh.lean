import Vpsim.Lib.SortedMap
import Vpsim.Lib.StateSpec
import Mathlib.Algebra.GroupWithZero.Nat
import Mathlib.Logic.Function.Basic

/-!
# The mesh of `CoherenceInterconnect`

The configuration of the interconnect, the state of its performance models, and the route of a
packet. A route is kept as the list of the routers passed, each with the output port taken.
`ComputeRouteAndUpdateRouters` finds it with one loop along the row of the source and one along
the column of the destination, and records the flits of the packet on the way.

The waiting time in a queue and the rounding of time stamps are computed in floating point; they
are parameters. Times are counted in the resolution of the simulation.
-/

namespace Vpsim.Connect

open Vpsim.Lib

/-- Number of values of `idx_t`. -/
def idxSize : ℕ := 2 ^ 32

/-- Number of values of a `uint64_t`. -/
def countSize : ℕ := 2 ^ 64

/-- `mesh_pos`. -/
structure MeshPos where
  xId : ℕ
  yId : ℕ
deriving DecidableEq, Repr

/-- The output buffers of a router, by the direction they lead to. -/
inductive OutputPort
  | north
  | south
  | east
  | west
  | toLocal
deriving DecidableEq, Repr

/-- A router on a route and the output port that is taken there. -/
structure Hop where
  pos : MeshPos
  port : OutputPort
deriving DecidableEq, Repr

/-- `route`. -/
abbrev Route := List Hop

/-- `outputBuffer`: the waiting times of packets, by their ids. -/
abbrev OutputBuffer := SortedMap ℕ ℕ

/-- An entry of `packetBuffer`. -/
structure Packet where
  id : ℕ
  path : Route
deriving DecidableEq, Repr

/-- An address range of `mAddressIDs` or `mHomeIDs`. -/
structure AddressRange where
  base : ℕ
  size : ℕ
  pos : MeshPos
deriving DecidableEq, Repr

/-- An entry of `MMappedOutputs`. -/
structure MMappedOutput where
  baseAddr : ℕ
  endAddr : ℕ
  port : ℕ
deriving DecidableEq, Repr

/-- The members of the interconnect that traffic leaves as they are, with the values that the
constructor gives. -/
structure NocConfig where
  isCoherent : Bool := false
  isMesh : Bool
  withContention : Bool
  mX : ℕ
  mY : ℕ
  accessLatency : ℕ := 0
  routerLatency : ℕ
  linkLatency : ℕ
  contentionInterval : ℕ
  bufferSize : ℕ
  virtualChannels : ℕ
  flitSize : ℕ
  mWordLengthInByte : ℕ
  memoryInterleaveLength : ℕ := 0
  slcInterleaveLength : ℕ := 0
  ramBaseAddr : ℕ := 2 ^ 64 - 1
  ramLastAddr : ℕ := 0
  indexFirstMemoryController : ℕ := 2 ^ 32 - 1
  addressIDs : List AddressRange := []
  cpuIDs : List (ℕ × MeshPos) := []
  deviceIDs : List (ℕ × MeshPos) := []
  homeIDs : List AddressRange := []
  cacheOutputs : List ℕ := []
  mMappedOutputs : List MMappedOutput := []
  queueWaitingTime : ℕ → ℕ → ℕ
  toNanoseconds : ℕ → ℕ

/-- The members that traffic changes. A buffer that was never used is empty. `flitsInjected`
counts the flits saved so far; no function reads it. -/
structure NocState where
  noc : Hop → OutputBuffer
  packetBuffer : List Packet
  totalFlits : ℕ
  intervalStart : ℕ
  intervalEnd : ℕ
  averageLatency : ℕ
  packetLatency : ℕ
  packetsCount : ℕ
  totalDistance : ℕ
  totalLatency : ℕ
  routerTotalLatency : ℕ → ℕ
  routerPacketsCount : ℕ → ℕ
  readCount : ℕ → ℕ
  writeCount : ℕ → ℕ
  flitsInjected : ℕ

/-- The state before any traffic. -/
def NocState.init : NocState where
  noc _ := SortedMap.empty
  packetBuffer := []
  totalFlits := 0
  intervalStart := 0
  intervalEnd := 0
  averageLatency := 0
  packetLatency := 0
  packetsCount := 0
  totalDistance := 0
  totalLatency := 0
  routerTotalLatency _ := 0
  routerPacketsCount _ := 0
  readCount _ := 0
  writeCount _ := 0
  flitsInjected := 0

/-- The ids of the packets in an output buffer. -/
def ids (s : NocState) (hop : Hop) : List ℕ := (s.noc hop).keys

/-- What ends a call: an exception of the interconnect, a failing assertion, or a use of a
container out of its bounds. -/
inductive NocFault
  | unknownAddress (addr : ℕ)
  | unknownId (id : ℕ)
  | unknownDeviceId (id : ℕ)
  | incorrectCoordinates
  | assertion
  | outOfRange
  | beforeBegin
  | pastEnd
deriving DecidableEq, Repr

/-- A function of the interconnect. -/
abbrev NocM := EStateM NocFault NocState

/-- The length that `set_mesh_coord` gives to the counters of the routers. -/
def routers (c : NocConfig) : ℕ := c.mX * c.mY % idxSize

/-- The index of a router in the counters, computed in `idx_t`. -/
def routerIndex (c : NocConfig) (pos : MeshPos) : ℕ := (pos.xId + pos.yId * c.mX) % idxSize

/-- Id of a flit of a packet with the given first id. -/
def flitId (id count : ℕ) : ℕ := (id + count) % idxSize

/-- Insert the flits of a packet into an output buffer. -/
def insertFlits (id nbFlits : ℕ) (buffer : OutputBuffer) : OutputBuffer :=
  (List.range nbFlits).foldl (fun buffer count => buffer.insert (flitId id count) 0) buffer

/-- What each round of the routing loops does to the router and the port that it appends to the
path. -/
def updateRouter (c : NocConfig) (id nbFlits : ℕ) (hop : Hop) : NocM PUnit := do
  modify fun s => { s with noc := Function.update s.noc hop (insertFlits id nbFlits (s.noc hop)) }
  if routerIndex c hop.pos < routers c then
    modify fun s => { s with
      routerPacketsCount := Function.update s.routerPacketsCount (routerIndex c hop.pos)
        ((s.routerPacketsCount (routerIndex c hop.pos) + nbFlits) % countSize) }
  else throw .outOfRange

/-- The hops appended by `rounds` rounds of a loop over `i`, and `i` after the loop. -/
def loopHops (next : ℕ → ℕ) (hop : ℕ → Hop) : ℕ → ℕ → Route × ℕ
  | 0, i => ([], i)
  | rounds + 1, i => (hop i :: (loopHops next hop rounds (next i)).1, (loopHops next hop rounds (next i)).2)

/-- The loops along the row of the source. Without one of them `i` keeps its initial value. -/
def rowHops (src dst : MeshPos) : Route × ℕ :=
  if dst.xId < src.xId then
    loopHops (fun i => i - 1) (fun i => ⟨⟨i, src.yId⟩, .west⟩) (src.xId - dst.xId) src.xId
  else if src.xId < dst.xId then
    loopHops (fun i => i + 1) (fun i => ⟨⟨i, src.yId⟩, .east⟩) (dst.xId - src.xId) src.xId
  else ([], 0)

/-- The loops over `j` along a column. -/
def columnHops (i : ℕ) (src dst : MeshPos) : Route :=
  if dst.yId < src.yId then
    (loopHops (fun j => j - 1) (fun j => ⟨⟨i, j⟩, .north⟩) (src.yId - dst.yId) src.yId).1
  else if src.yId < dst.yId then
    (loopHops (fun j => j + 1) (fun j => ⟨⟨i, j⟩, .south⟩) (dst.yId - src.yId) src.yId).1
  else []

/-- The path that `ComputeRouteAndUpdateRouters` returns. -/
def routeHops (src dst : MeshPos) : Route :=
  if dst.xId = src.xId ∧ dst.yId = src.yId then [⟨dst, .toLocal⟩]
  else
    let row := rowHops src dst
    row.1 ++ columnHops (if dst.xId = src.xId then src.xId else row.2) src dst ++ [⟨dst, .toLocal⟩]

/-- `ComputeRouteAndUpdateRouters`. -/
def computeRouteAndUpdateRouters (c : NocConfig) (src dst : MeshPos) (id nbFlits : ℕ) : NocM Route := do
  (routeHops src dst).forM (updateRouter c id nbFlits)
  return routeHops src dst

/-- `getRouterPacketsCount`, with `none` for an index out of range. -/
def getRouterPacketsCount (c : NocConfig) (s : NocState) (x y : ℕ) : Option ℕ :=
  if x + y * c.mX < routers c then some (s.routerPacketsCount (x + y * c.mX)) else none

/-- The number of routers from one position to another that the latency model without contention
uses. -/
def meshDistance (src dst : MeshPos) : ℕ :=
  ((src.xId : ℤ) - dst.xId).natAbs + ((src.yId : ℤ) - dst.yId).natAbs + 1

/-- The mesh of the given size with nothing attached to it. -/
def bareMesh (mX mY : ℕ) : NocConfig where
  isMesh := true
  withContention := true
  mX := mX
  mY := mY
  routerLatency := 1
  linkLatency := 1
  contentionInterval := 10
  bufferSize := 1
  virtualChannels := 1
  flitSize := 16
  mWordLengthInByte := 64
  queueWaitingTime wait _ := wait
  toNanoseconds time := time

end Vpsim.Connect
