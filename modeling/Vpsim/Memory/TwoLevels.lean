import Vpsim.Memory.DirtyLines
import Vpsim.Memory.Hierarchy

/-!
# Two levels of caches without coherence

Any number of upper caches above one lower cache that is to contain their lines. The transfers of an upper
cache are accesses of the lower one, and the lower cache invalidates a line in the upper caches that its
`Sharers` name. Each call is synchronous, so an invalidation that writes a line back comes down again while
the lower cache is still at its access; the ports of the lower cache are built for calls nested up to a given
depth.

No cache is above the upper caches, so their own inclusion policy towards it is `NINE`, the only one that is
valid for a cache of the first level.
-/

namespace Vpsim.Memory

/-- The caches of two levels with `n` upper caches. -/
inductive LevelRef (n : ℕ)
  | upper (j : Fin n)
  | lower
deriving DecidableEq

/-- Write-back, write-allocate caches with lines of equal size: the lower one includes the lines of the upper ones. -/
structure TwoLevels (n : ℕ) extends Platform (LevelRef n) where
  lineBits : ℕ
  lineSize_eq : ∀ r, (cfg r).geometry.cacheLineSize = 2 ^ lineBits
  interleaved_le : ∀ r, (cfg r).geometry.nbInterleavedCaches ≤ 1
  writeBack : ∀ r, (cfg r).writePolicy = .wBack
  writeAllocate : ∀ r, (cfg r).allocPolicy = .wAllocate
  upper_higher : ∀ j, (cfg (.upper j)).inclusionOfHigher = .nine
  upper_lower : ∀ j, (cfg (.upper j)).inclusionOfLower = .inclusive
  lower_higher : (cfg .lower).inclusionOfHigher = .inclusive
  id_injective : Function.Injective fun j => (cfg (.upper j)).id

namespace TwoLevels

variable {n : ℕ} (L : TwoLevels n)

/-- The id of an upper cache. -/
def upperId (j : Fin n) : ℕ := (L.cfg (.upper j)).id

section Ports

variable (io : DataPorts (LevelRef n)) (before : ℕ → CacheM (LevelRef n) Unit)

/-- A transfer of an upper cache, a `Read` or a `Write` of the lower one. Before it reaches the lower cache,
`before` is run on its address. -/
def toLower (j : Fin n) (mode : CoherenceCommand) (addr size : ℕ) : CacheM (LevelRef n) Unit := do
  before addr
  accessNonCoherentCache L.toPlatform io .lower mode (L.upperId j) 0 (size + 1) size addr

/-- The ports of an upper cache over the ports `io` of the lower one. -/
def upperPorts (j : Fin n) : DataPorts (LevelRef n) :=
  { sinkPorts with
    forwardReadData := L.toLower io before j .read
    forwardWriteData := L.toLower io before j .write }

/-- `InvalidateLine` of an upper cache, if its id is listed. -/
def toUpper (addr : ℕ) (ids : Finset ℕ) (j : Fin n) : CacheM (LevelRef n) Unit :=
  runIf (L.upperId j ∈ ids)
    (accessNonCoherentCache L.toPlatform (L.upperPorts io before j) (.upper j) .invalidate nullIdx 0 1
      (L.cfg (.upper j)).geometry.cacheLineSize addr)

/-- The ports of the lower cache, for `depth` invalidations within each other. -/
def lowerPorts : (depth : ℕ) → DataPorts (LevelRef n)
  | 0 => { sinkPorts with backInvalidate := fun _ _ => throw .undefined }
  | depth + 1 =>
    { sinkPorts with
      backInvalidate := fun addr ids => (List.finRange n).forM (L.toUpper (lowerPorts depth) before addr ids) }

end Ports

variable (before : ℕ → CacheM (LevelRef n) Unit) (depth : ℕ)

/-- A read or a write of the CPU above an upper cache. -/
def access (x : CpuAccess n) : CacheM (LevelRef n) Unit :=
  accessNonCoherentCache L.toPlatform (L.upperPorts (L.lowerPorts before depth) before x.cpu) (.upper x.cpu)
    (if x.write then .write else .read) x.initiatorId x.handle (x.size + 1) x.size x.addr

/-- Accesses one after the other. -/
def runWith (xs : List (CpuAccess n)) : CacheM (LevelRef n) Unit := xs.forM (L.access before depth)

/-- Accesses one after the other, with nothing run before those of the lower cache. -/
def run (xs : List (CpuAccess n)) : CacheM (LevelRef n) Unit := L.runWith (fun _ => pure ()) depth xs

/-- An access of the lower cache misses and replaces a line that an upper cache has modified. -/
def Displaces (s : State (LevelRef n)) (addr : ℕ) : Prop :=
  let found := (s.cache .lower).find (L.cfg .lower).geometry addr
  let victim := (s.cache .lower).line found.2
  found.1 = false ∧ victim.Valid ∧
    ∃ j, (s.cache (.upper j)).stateOf (L.cfg (.upper j)).geometry victim.address = .modified

instance (s : State (LevelRef n)) (addr : ℕ) : Decidable (L.Displaces s addr) := by
  unfold Displaces CacheLine.Valid
  infer_instance

/-- Stop before an access of the lower cache that replaces a line which an upper cache has modified. -/
def watch (addr : ℕ) : CacheM (LevelRef n) Unit := do
  let s ← get
  if L.Displaces s addr then throw .assertion

/-- The line address of an address. -/
def lineOf (addr : ℕ) : ℕ := addr - addr % 2 ^ L.lineBits

/-- A line address whose tag an `unsigned` holds in every cache. -/
structure IsLine (a : ℕ) : Prop where
  lt : a < 2 ^ addressBits
  aligned : 2 ^ L.lineBits ∣ a
  tag_lt : ∀ r, (L.cfg r).geometry.tag a < wordSize

/-- The access is one of 64-bit addresses, and the lines of the bytes it covers have tags of 32 bits. -/
structure Fits (x : CpuAccess n) : Prop where
  size_lt : x.size < 2 ^ 64
  addr_lt : x.addr < 2 ^ 64
  line : ∀ k ≤ x.size - 1, L.IsLine (L.lineOf (add64 x.addr k))

/-- Every line that is valid in an upper cache is valid in the lower one. -/
def Included (s : State (LevelRef n)) : Prop :=
  ∀ j a x, x ≠ .invalid → (s.cache (.upper j)).Holds (L.cfg (.upper j)).geometry a x →
    ∃ y, y ≠ .invalid ∧ (s.cache .lower).Holds (L.cfg .lower).geometry a y

end TwoLevels

end Vpsim.Memory
