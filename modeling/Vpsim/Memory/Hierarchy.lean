import Vpsim.Memory.CoherentAccess

/-!
# A coherent cache hierarchy

Any number of L2 caches, each with one private L1 above it, under one home cache. Every
transaction that a cache sends is the synchronous call of the access function of its targets:
the home passes a command on to the L2 caches that its target set names, in the order of the
interconnect's ports.

A CPU access may cover several lines; `Fits` says that the lines it touches have tags that an
`unsigned` can hold, in every cache.
-/

namespace Vpsim.Memory

/-- The caches of a hierarchy with `n` L2 caches. -/
inductive CacheRef (n : ℕ)
  | l1 (j : Fin n)
  | l2 (j : Fin n)
  | home
deriving DecidableEq

/-- A hierarchy of write-back, write-allocate caches with lines of equal size and one home. -/
structure Hierarchy (n : ℕ) extends Platform (CacheRef n) where
  lineBits : ℕ
  lineSize_eq : ∀ r, (cfg r).geometry.cacheLineSize = 2 ^ lineBits
  interleaved_le : ∀ r, (cfg r).geometry.nbInterleavedCaches ≤ 1
  writeBack : ∀ r, (cfg r).writePolicy = .wBack
  writeAllocate : ∀ r, (cfg r).allocPolicy = .wAllocate
  isHome_eq : ∀ r, (cfg r).isHome = decide (r = .home)
  l2Id_injective : Function.Injective fun j => (cfg (.l2 j)).id

namespace Hierarchy

variable {n : ℕ} (H : Hierarchy n)

/-- The id of an L1 cache. -/
def l1Id (j : Fin n) : ℕ := (H.cfg (.l1 j)).id

/-- The id of an L2 cache. -/
def l2Id (j : Fin n) : ℕ := (H.cfg (.l2 j)).id

/-- The home excludes the lines of the upper caches. -/
def Exclusive : Prop := (H.cfg .home).inclusionOfHigher = .exclusive

instance : Decidable H.Exclusive :=
  inferInstanceAs (Decidable ((H.cfg .home).inclusionOfHigher = .exclusive))

/-- The ports of a cache that sends nothing. -/
def noPorts : Ports (CacheRef n) where
  socketOut0 _ := throw .undefined
  socketOut1 _ := throw .undefined
  forwardReadData _ := throw .undefined
  forwardWriteData _ := throw .undefined
  forwardEvict _ := throw .undefined

/-- A command of an L2 cache to the L1 above it. -/
def toL1 (j : Fin n) (t : Transaction) : CacheM (CacheRef n) Unit :=
  runIf (H.l1Id j ∈ t.targetIds)
    (accessCpuCache H.toPlatform noPorts (.l1 j) t.command t.initiatorId 0 1 t.size t.addr)

/-- The ports of an L2 cache while it serves the home. -/
def l2UpPorts (j : Fin n) : Ports (CacheRef n) := { noPorts with socketOut1 := H.toL1 j }

/-- A command of the home to an L2 cache. -/
def toL2Up (t : Transaction) (j : Fin n) : CacheM (CacheRef n) Unit :=
  runIf (H.l2Id j ∈ t.targetIds)
    (accessL2Cache H.toPlatform (H.l2UpPorts j) (.l2 j) t.command t.size t.addr t.initiatorId 0)

/-- `sendTransactionToCache`: the targets are served in the order of their ports. -/
def toL2s (t : Transaction) : CacheM (CacheRef n) Unit := (List.finRange n).forM (H.toL2Up t)

/-- The ports of the home. -/
def homePorts : Ports (CacheRef n) :=
  { noPorts with
    socketOut0 := H.toL2s
    forwardReadData := fun a => emit (.forwardReadData a)
    forwardWriteData := fun a => emit (.forwardWriteData a) }

/-- A command of an L2 cache to the home. -/
def toHome (t : Transaction) : CacheM (CacheRef n) Unit :=
  accessCoherentHome H.toPlatform H.homePorts .home t.command t.size t.addr t.initiatorId 0

/-- The ports of an L2 cache while it serves its L1. -/
def l2Ports (j : Fin n) : Ports (CacheRef n) :=
  { noPorts with socketOut0 := H.toHome, socketOut1 := H.toL1 j }

/-- A command of an L1 cache to the L2 below it. -/
def toL2 (j : Fin n) (t : Transaction) : CacheM (CacheRef n) Unit :=
  accessL2Cache H.toPlatform (H.l2Ports j) (.l2 j) t.command t.size t.addr t.initiatorId 0

/-- The ports of an L1 cache while it serves its CPU. -/
def l1Ports (j : Fin n) : Ports (CacheRef n) := { noPorts with socketOut0 := H.toL2 j }

end Hierarchy

/-- A read or a write of a CPU. -/
structure CpuAccess (n : ℕ) where
  cpu : Fin n
  write : Bool
  size : ℕ
  addr : ℕ
  initiatorId : ℕ := nullIdx
  handle : ℕ := 0

namespace Hierarchy

variable {n : ℕ} (H : Hierarchy n)

/-- One CPU access. Every activation of `accessCpuCache` but the first covers at least one byte
of the rest, so `size + 1` activations are enough. -/
def cpuAccess (x : CpuAccess n) : CacheM (CacheRef n) Unit :=
  accessCpuCache H.toPlatform (H.l1Ports x.cpu) (.l1 x.cpu) (if x.write then .write else .read)
    x.initiatorId x.handle (x.size + 1) x.size x.addr

/-- CPU accesses one after the other; a failing assertion ends the run. -/
def run (xs : List (CpuAccess n)) : CacheM (CacheRef n) Unit := xs.forM H.cpuAccess

/-! The same with another program behind the sockets that lead to the home. -/

/-- The ports of an L2 cache while it serves its L1. -/
def l2PortsOver (home : Transaction → CacheM (CacheRef n) Unit) (j : Fin n) : Ports (CacheRef n) :=
  { noPorts with socketOut0 := home, socketOut1 := H.toL1 j }

/-- A command of an L1 cache to the L2 below it. -/
def toL2Over (home : Transaction → CacheM (CacheRef n) Unit) (j : Fin n) (t : Transaction) :
    CacheM (CacheRef n) Unit :=
  accessL2Cache H.toPlatform (H.l2PortsOver home j) (.l2 j) t.command t.size t.addr t.initiatorId 0

/-- The ports of an L1 cache while it serves its CPU. -/
def l1PortsOver (home : Transaction → CacheM (CacheRef n) Unit) (j : Fin n) : Ports (CacheRef n) :=
  { noPorts with socketOut0 := H.toL2Over home j }

/-- One CPU access. -/
def cpuAccessOver (home : Transaction → CacheM (CacheRef n) Unit) (x : CpuAccess n) :
    CacheM (CacheRef n) Unit :=
  accessCpuCache H.toPlatform (H.l1PortsOver home x.cpu) (.l1 x.cpu) (if x.write then .write else .read)
    x.initiatorId x.handle (x.size + 1) x.size x.addr

/-- CPU accesses one after the other. -/
def runOver (home : Transaction → CacheM (CacheRef n) Unit) (xs : List (CpuAccess n)) :
    CacheM (CacheRef n) Unit := xs.forM (H.cpuAccessOver home)

/-- The line address of an address. -/
def lineOf (addr : ℕ) : ℕ := addr - addr % 2 ^ H.lineBits

/-- A line address whose tag an `unsigned` holds in every cache. -/
structure IsLine (a : ℕ) : Prop where
  lt : a < 2 ^ addressBits
  aligned : 2 ^ H.lineBits ∣ a
  tag_lt : ∀ r, (H.cfg r).geometry.tag a < wordSize

/-- The access is one of 64-bit addresses, and the lines of the bytes it covers have tags of 32
bits. An access of size 0 still touches the line of its address. -/
structure Fits (x : CpuAccess n) : Prop where
  size_lt : x.size < 2 ^ 64
  addr_lt : x.addr < 2 ^ 64
  line : ∀ k ≤ x.size - 1, H.IsLine (H.lineOf (add64 x.addr k))

/-- The state is reached by a run of accesses from the empty hierarchy. -/
def Reached (s : State (CacheRef n)) : Prop :=
  ∃ xs : List (CpuAccess n), (∀ x ∈ xs, H.Fits x) ∧ H.run xs (.init H.toPlatform) = .ok () s

end Hierarchy

end Vpsim.Memory
