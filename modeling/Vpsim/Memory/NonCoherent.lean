import Vpsim.Memory.CoherentAccess

/-!
# The access function without coherence

`accessNonCoherentCache` of `CacheBase.hpp`, over arbitrary ports for its transfers. As in the
coherent functions, a line is read again after every transfer, which may come back to the same
cache. An absent entry of `Sharers` and an empty one are not told apart: the source tests for
both together.
-/

namespace Vpsim.Memory

/-- Where the transfers of a cache without coherence go. -/
structure DataPorts (ι : Type) where
  forwardReadData : (addr size : ℕ) → CacheM ι Unit
  forwardWriteData : (addr size : ℕ) → CacheM ι Unit
  forwardEvict : (addr size : ℕ) → CacheM ι Unit
  backInvalidate : (addr : ℕ) → (sharerIds : Finset ℕ) → CacheM ι Unit
  backwardRead : (addr size : ℕ) → (sharerIds : Finset ℕ) → CacheM ι Unit

variable {ι : Type} [DecidableEq ι] (pl : Platform ι) (io : DataPorts ι) (self : ι)

/-- `Sharers[addr]` read as a value. -/
def sharersOf (addr : ℕ) : CacheM ι (Finset ℕ) := return ((← get).cache self).sharers addr

/-- A method call on `Sharers[addr]`. -/
def sharersModify (addr : ℕ) (f : Finset ℕ → Finset ℕ) : CacheM ι Unit :=
  modify fun s => s.modifyCache self fun c =>
    { c with sharers := Function.update c.sharers addr (f (c.sharers addr)) }

/-- The lower cache takes the line away. -/
def nonCoherentInvalidate (isHit : Bool) (p : LineRef) : CacheM ι Unit :=
  runIf (isHit = true) do
    let line ← getLine self p
    runIf (line.state = .modified)
      (io.forwardWriteData line.address (pl.cfg self).geometry.cacheLineSize)
    setState self p .invalid

/-- A read that misses in a cache that excludes the lines of the upper ones: the data comes from
one of these or from below, and nothing is allocated. -/
def nonCoherentMissRead (addr initiatorId : ℕ) : CacheM ι Unit := do
  check pl ((pl.cfg self).level ≠ 1)
  let ids ← sharersOf self addr
  if ids.card ≠ 0 then io.backwardRead addr (pl.cfg self).geometry.cacheLineSize ids
  else io.forwardReadData addr (pl.cfg self).geometry.cacheLineSize
  sharersModify self addr (insert initiatorId)

/-- What happens to the victim of a miss: a modified line is written back, a shared one handed to
a lower cache that excludes it, and the upper copies are invalidated if they have to be included. -/
def nonCoherentReplace (isHit : Bool) (p : LineRef) : CacheM ι Unit := do
  let cfg := pl.cfg self
  let line ← getLine self p
  runIf (isHit = false ∧ line.state = .modified ∧ cfg.writePolicy = .wBack) do
    io.forwardWriteData line.address cfg.geometry.cacheLineSize
    setState self p .invalid
  let line ← getLine self p
  runIf (isHit = false ∧ line.state = .shared ∧ cfg.inclusionOfLower = .exclusive)
    (io.forwardEvict line.address cfg.geometry.cacheLineSize)
  runIf (cfg.inclusionOfHigher = .inclusive ∧ isHit = false) do
    let line ← getLine self p
    let ids ← sharersOf self line.address
    runIf (ids.card ≠ 0) do
      io.backInvalidate line.address ids
      let line ← getLine self p
      sharersModify self line.address fun _ => ∅

/-- The read of a line. -/
def nonCoherentRead (isHit : Bool) (p : LineRef) (initiatorId : ℕ) : CacheM ι Unit := do
  let cfg := pl.cfg self
  check pl (cfg.inclusionOfHigher ≠ .exclusive ∨ isHit = true)
  let line ← getLine self p
  sharersModify self line.address (insert initiatorId)
  if isHit = false then do
    io.forwardReadData line.address cfg.geometry.cacheLineSize
    setState self p .shared
  else runIf (cfg.inclusionOfHigher = .exclusive) (setState self p .invalid)

/-- How a cache takes the write of a line: one that excludes the lines of the upper ones does not keep
a line that they share, a write-through cache passes the bytes on, any other marks the line. -/
def nonCoherentStore (isHit : Bool) (p : LineRef) (addr accessSize : ℕ) : CacheM ι Unit := do
  let cfg := pl.cfg self
  let line ← getLine self p
  if cfg.inclusionOfHigher = .exclusive ∧ isHit = false then do
    let ids ← sharersOf self line.address
    if ids.card ≠ 0 then setState self p .invalid
    else do
      io.forwardReadData line.address cfg.geometry.cacheLineSize
      setState self p .modified
  else if cfg.writePolicy = .wThrough then io.forwardWriteData addr accessSize
  else do
    runIf (isHit = false) (io.forwardReadData line.address cfg.geometry.cacheLineSize)
    setState self p .modified

/-- The write of `accessSize` bytes of a line. A lower cache that includes the line gets it as well. -/
def nonCoherentWrite (isHit : Bool) (p : LineRef) (addr accessSize initiatorId : ℕ) :
    CacheM ι Unit := do
  let cfg := pl.cfg self
  let line ← getLine self p
  sharersModify self line.address fun ids => ids.erase initiatorId
  nonCoherentStore pl io self isHit p addr accessSize
  let line ← getLine self p
  runIf (cfg.inclusionOfLower = .inclusive)
    (io.forwardWriteData line.address cfg.geometry.cacheLineSize)

/-- An upper cache hands its replaced line over. -/
def nonCoherentEvict (isHit : Bool) (p : LineRef) (initiatorId : ℕ) : CacheM ι Unit := do
  check pl ((pl.cfg self).inclusionOfHigher = .exclusive)
  let line ← getLine self p
  sharersModify self line.address fun ids => ids.erase initiatorId
  check pl (isHit = false ∨ line.state = .modified)
  let ids ← sharersOf self line.address
  setState self p (if ids.card ≠ 0 then .invalid else .shared)

/-- The commands that allocate a line. -/
def nonCoherentServe (mode : CoherenceCommand) (isHit : Bool) (p : LineRef)
    (addr accessSize initiatorId : ℕ) : CacheM ι Unit :=
  match mode with
  | .read => nonCoherentRead pl io self isHit p initiatorId
  | .write => nonCoherentWrite pl io self isHit p addr accessSize initiatorId
  | .evict => nonCoherentEvict pl self isHit p initiatorId
  | _ => check pl False

/-- The replacement, the allocation and the command itself: the number of bytes of the line that the
access covers if it continues in the next line. -/
def nonCoherentAllocating (mode : CoherenceCommand) (isHit : Bool) (p : LineRef)
    (size addr initiatorId handle : ℕ) : CacheM ι (Option ℕ) := do
  let g := (pl.cfg self).geometry
  let line ← getLine self p
  check pl (isHit = false ∨ (line.address ≤ addr ∧ addr - line.address < g.cacheLineSize))
  nonCoherentReplace pl io self isHit p
  allocate pl self isHit p (g.lineBase addr) addr handle
  let line ← getLine self p
  let used := sub64 addr line.address
  let alignment := g.cacheLineSize < add64 used size
  let accessSize := if alignment then sub64 g.cacheLineSize used else size
  check pl (accessSize ≤ g.cacheLineSize)
  nonCoherentServe pl io self mode isHit p addr accessSize initiatorId
  return if alignment then some accessSize else none

/-- What an activation does with the place that its lookup has found. -/
def nonCoherentAt (mode : CoherenceCommand) (isHit : Bool) (p : LineRef)
    (size addr initiatorId handle : ℕ) : CacheM ι (Option ℕ) :=
  if mode = .invalidate then do
    nonCoherentInvalidate pl io self isHit p
    return none
  else if mode = .readBack then do
    check pl (isHit = true)
    return none
  else if isHit = false ∧ (pl.cfg self).inclusionOfHigher = .exclusive ∧ mode = .read then do
    nonCoherentMissRead pl io self addr initiatorId
    return none
  else nonCoherentAllocating pl io self mode isHit p size addr initiatorId handle

/-- One activation of `accessNonCoherentCache`. -/
def accessNonCoherentLine (mode : CoherenceCommand) (size addr initiatorId handle : ℕ) :
    CacheM ι (Option ℕ) := do
  let (isHit, p) ← lookup pl self addr
  let line ← getLine self p
  check pl (isHit = false ∨ line.state ≠ .invalid)
  notifyVictim pl self isHit p
  nonCoherentAt pl io self mode isHit p size addr initiatorId handle

/-- `accessNonCoherentCache`, with the recursion over the lines of an access bounded by `fuel`. -/
def accessNonCoherentCache (mode : CoherenceCommand) (initiatorId handle : ℕ) :
    (fuel size addr : ℕ) → CacheM ι Unit
  | 0, _, _ => throw .undefined
  | fuel + 1, size, addr => do
    match ← accessNonCoherentLine pl io self mode size addr initiatorId handle with
    | none => return ()
    | some accessSize =>
      accessNonCoherentCache mode initiatorId handle fuel (sub64 size accessSize)
        (add64 addr accessSize)

end Vpsim.Memory
