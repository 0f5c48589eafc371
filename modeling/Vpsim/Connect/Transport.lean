import Vpsim.Connect.NetworkTiming
import Vpsim.Lib.Span
import Vpsim.Memory.CacheBase

/-!
# Transactions of caches and of devices

`b_transport` times the transaction of a cache as one packet and sends it on. `b_transport_device`
splits the transaction of a device on the mesh: a read into words of the memory, each of which comes
back flit by flit, a write into flits. The pieces are made by rewriting the address and the length of
the transaction, which get their values back at the end.

The latency of the components behind the interconnect is a parameter, which may depend on all the
accesses made so far.
-/

namespace Vpsim.Connect

open Vpsim.Lib
open Vpsim.Memory (CoherenceCommand)

/-- The fields of `CoherencePayloadExtension` that the interconnect reads. -/
structure CoherenceExtension where
  coherenceCommand : CoherenceCommand
  initiatorId : ℕ
  targetIds : List ℕ
  toHome : Bool
deriving DecidableEq, Repr

/-- A transaction of a cache, with the time stamp of its `SourceCpuExtension`. -/
structure CacheTransaction where
  trans : Payload
  ext : CoherenceExtension
  timeStamp : ℕ
deriving DecidableEq, Repr

/-- `isDownstream`: the initiator waits for the answer. -/
def isDownstream (t : CacheTransaction) : Bool :=
  t.trans.command = .read ∨ (t.trans.command = .ignore ∧
    (t.ext.coherenceCommand = .getS ∨ t.ext.coherenceCommand = .getM ∨
      t.ext.coherenceCommand = .fwdGetS ∨ t.ext.coherenceCommand = .fwdGetM))

/-- `isIdMapped`: the targets are given by their ids. -/
def isIdMapped (c : NocConfig) (t : CacheTransaction) : Bool :=
  t.trans.command = .ignore ∧
    if c.isCoherent then
      t.ext.coherenceCommand = .fwdGetS ∨ t.ext.coherenceCommand = .fwdGetM ∨ t.ext.coherenceCommand = .putI ∨
        t.ext.coherenceCommand = .invS ∨ t.ext.coherenceCommand = .invM
    else t.ext.coherenceCommand = .invalidate

/-- The transactions that transport data to their target. -/
def transportsData (t : CacheTransaction) : Bool :=
  t.trans.command = .write ∨ t.ext.coherenceCommand = .putS ∨ t.ext.coherenceCommand = .putM

/-- `nbFlits`. -/
def nbFlits (c : NocConfig) (t : CacheTransaction) : ℕ :=
  if transportsData t then t.trans.dataLength / c.flitSize else 1

/-- `computeNoCPerformance`. -/
def computeNoCPerformance (distance latency : ℕ) : NocM PUnit :=
  modify fun s => { s with
    totalDistance := s.totalDistance + distance
    totalLatency := s.totalLatency + latency
    packetsCount := s.packetsCount + 1 }

/-- What `b_transport` does before it sends the transaction: the delay with the latency of the
interconnect. -/
def computeDelay (c : NocConfig) (t : CacheTransaction) (delay : ℕ) : NocM ℕ := do
  if c.isMesh then
    if c.withContention then
      let srcPos ← ofExcept (getNocPosById c t.ext.initiatorId)
      networkTimingModel c t.trans (t.timeStamp + delay) t.ext.toHome (isIdMapped c t) (nbFlits c t) srcPos
        t.ext.targetIds false
      let packetLatency := (← get).packetLatency
      return if isDownstream t then delay + packetLatency else delay
    else
      let dist ← ofExcept (computeNoCLatency c t.ext.toHome (isIdMapped c t) t.trans.address t.ext.initiatorId
        t.ext.targetIds)
      computeNoCPerformance dist (c.routerLatency * dist)
      return if isDownstream t then delay + c.routerLatency * dist else delay
  else return if isDownstream t then delay + c.accessLatency else delay

/-- A transaction sent to a memory-mapped component. -/
structure MemoryAccess where
  port : ℕ
  trans : Payload
deriving DecidableEq, Repr

/-- The addresses of the bytes that are accessed. -/
def MemoryAccess.bytes (access : MemoryAccess) : List ℕ :=
  span countSize access.trans.address access.trans.dataLength

/-- Whether a component takes a transaction. -/
def MMappedOutput.takes (trans : Payload) (output : MMappedOutput) : Bool :=
  output.baseAddr ≤ trans.address ∧
    (trans.address + trans.dataLength + (countSize - 1)) % countSize ≤ output.endAddr

/-- `sendTransactionToMMapped`: the accesses made so far and the delay, with this access. -/
def sendTransactionToMMapped (c : NocConfig) (memory : List MemoryAccess → ℕ → ℕ) (trans : Payload)
    (sent : List MemoryAccess) (delay : ℕ) : NocM (List MemoryAccess × ℕ) :=
  if trans.command = .ignore then throw .assertion
  else match c.mMappedOutputs.find? (MMappedOutput.takes trans) with
    | some output => return (sent ++ [⟨output.port, trans⟩], memory (sent ++ [⟨output.port, trans⟩]) delay)
    | none => throw .assertion

/-- A transaction that is sent is one access. -/
theorem sendTransactionToMMapped_spec {c : NocConfig} {memory : List MemoryAccess → ℕ → ℕ} (trans : Payload)
    (sent : List MemoryAccess) (delay : ℕ) (s : NocState) :
    wp (sendTransactionToMMapped c memory trans sent delay)
      (fun r s' => s' = s ∧ ∃ port, r.1 = sent ++ [⟨port, trans⟩]) (fun _ _ => True) s := by
  unfold sendTransactionToMMapped
  by_cases hignore : trans.command = .ignore
  · exact wp.ite_pos hignore trivial
  · apply wp.ite_neg hignore
    split
    · rename_i output _
      exact ⟨rfl, output.port, rfl⟩
    · exact trivial

/-- A transaction of a device, with the id and the time stamp of its `SourceDeviceExtension`. -/
structure DeviceTransaction where
  trans : Payload
  deviceId : ℕ
  timeStamp : ℕ
deriving DecidableEq, Repr

/-- The variables of `b_transport_device`, and the accesses made so far. -/
structure Burst where
  trans : Payload
  delay : ℕ
  addr : ℕ
  arrivalDelay : ℕ
  memDelay : ℕ
  maxDelay : ℕ
  sent : List MemoryAccess
deriving DecidableEq, Repr

/-- The number of pieces of a size that a length is rounded up to. -/
def roundedUp (length size : ℕ) : ℕ := if length % size ≠ 0 then length / size + 1 else length / size

/-- Update the address for the next piece. -/
def Burst.advance (length : ℕ) (b : Burst) : Burst :=
  { b with
    addr := (b.addr + length) % countSize
    trans := { b.trans with address := (b.addr + length) % countSize } }

/-- A flit of a word that was read, on its way from the memory to the device. -/
def readFlit (c : NocConfig) (timeStamp : ℕ) (srcPos : MeshPos) (b : Burst) : NocM Burst := do
  networkTimingModel c b.trans (timeStamp + b.arrivalDelay) false false 1 srcPos [] true
  let tmpDelay := b.memDelay + (← get).packetLatency
  return { b with maxDelay := max b.maxDelay tmpDelay }

/-- A word that is read. -/
def readWord (c : NocConfig) (memory : List MemoryAccess → ℕ → ℕ) (timeStamp : ℕ) (srcPos : MeshPos)
    (b : Burst) : NocM Burst := do
  let (sent, memDelay) ← sendTransactionToMMapped c memory { b.trans with dataLength := c.mWordLengthInByte }
    b.sent b.memDelay
  let b' ← repeatM (readFlit c timeStamp srcPos) (roundedUp c.mWordLengthInByte c.flitSize)
    { b with
      trans := { b.trans with dataLength := c.flitSize }
      arrivalDelay := memDelay
      memDelay := memDelay
      sent := sent }
  return b'.advance c.mWordLengthInByte

/-- A flit that is written. -/
def writeFlit (c : NocConfig) (memory : List MemoryAccess → ℕ → ℕ) (timeStamp : ℕ) (srcPos : MeshPos)
    (b : Burst) : NocM Burst := do
  networkTimingModel c b.trans (timeStamp + b.arrivalDelay) false false 1 srcPos [] false
  let (sent, memDelay) ← sendTransactionToMMapped c memory b.trans b.sent
    (b.arrivalDelay + (← get).packetLatency)
  return { b with memDelay := memDelay, maxDelay := max b.maxDelay memDelay, sent := sent }.advance c.flitSize

/-- The read of a device. -/
def deviceRead (c : NocConfig) (memory : List MemoryAccess → ℕ → ℕ) (timeStamp : ℕ) (srcPos : MeshPos)
    (b : Burst) : NocM Burst := do
  if c.isMesh then
    let b' ← repeatM (readWord c memory timeStamp srcPos) (roundedUp b.trans.dataLength c.mWordLengthInByte)
      { b with memDelay := b.delay }
    return { b' with delay := b'.maxDelay }
  else
    let (sent, delay) ← sendTransactionToMMapped c memory b.trans b.sent b.delay
    return { b with delay := delay + c.accessLatency, sent := sent }

/-- The write of a device. -/
def deviceWrite (c : NocConfig) (memory : List MemoryAccess → ℕ → ℕ) (timeStamp : ℕ) (srcPos : MeshPos)
    (b : Burst) : NocM Burst := do
  if c.isMesh then
    let b' ← repeatM (writeFlit c memory timeStamp srcPos) (roundedUp b.trans.dataLength c.flitSize)
      { b with trans := { b.trans with dataLength := c.flitSize }, arrivalDelay := b.delay }
    return { b' with delay := b'.maxDelay }
  else
    let (sent, delay) ← sendTransactionToMMapped c memory b.trans b.sent (b.delay + c.accessLatency)
    return { b with delay := delay, sent := sent }

/-- The read or the write of a device. -/
def deviceBurst (c : NocConfig) (memory : List MemoryAccess → ℕ → ℕ) (timeStamp : ℕ) (srcPos : MeshPos)
    (b : Burst) : NocM Burst :=
  if b.trans.command = .read then deviceRead c memory timeStamp srcPos b
  else deviceWrite c memory timeStamp srcPos b

/-- `b_transport_device`. -/
def bTransportDevice (c : NocConfig) (memory : List MemoryAccess → ℕ → ℕ) (d : DeviceTransaction) (delay : ℕ) :
    NocM Burst := do
  let srcPos ← ofExcept (getDeviceNocPosById c d.deviceId)
  let b' ← deviceBurst c memory d.timeStamp srcPos ⟨d.trans, delay, d.trans.address, 0, 0, 0, []⟩
  return { b' with trans := { b'.trans with dataLength := d.trans.dataLength, address := d.trans.address } }

/-- Two routers, a cache and a device at the first one and a memory at the second one. -/
def memoryMesh : NocConfig :=
  { bareMesh 2 1 with
    isCoherent := true
    addressIDs := [⟨0, 4096, ⟨1, 0⟩⟩]
    cpuIDs := [(0, ⟨0, 0⟩)]
    deviceIDs := [(0, ⟨0, 0⟩)]
    mMappedOutputs := [⟨0, 4095, 0⟩] }

/-- A transaction of the device. -/
def deviceAccess (command : TlmCommand) (address dataLength : ℕ) : DeviceTransaction :=
  ⟨⟨command, address, dataLength⟩, 0, 1⟩

/-- A memory that takes no time. -/
def quickMemory : List MemoryAccess → ℕ → ℕ := fun _ delay => delay

end Vpsim.Connect
