import Vpsim.Memory.CacheBase

/-!
# The coherent access functions

`accessCpuCache`, `accessL2Cache` and `accessCoherentHome` of `CacheBase.hpp`, over arbitrary
ports for the transactions they send. The functions are cut at the places where the source
switches over the command; every part reads lines and directory entries again where the
source does, since a transaction it sends may come back to the same cache.
-/

namespace Vpsim.Memory

variable {ι : Type} [DecidableEq ι] (pl : Platform ι) (io : Ports ι) (self : ι)

/-- Addition of 64-bit values. -/
def add64 (x y : ℕ) : ℕ := (x + y) % 2 ^ 64

/-- Subtraction of 64-bit values. -/
def sub64 (x y : ℕ) : ℕ := (x + (2 ^ 64 - y)) % 2 ^ 64

/-! ## L1 caches -/

/-- The commands of a lower cache, which allocate nothing. -/
def cpuFwdGetS (isHit : Bool) (p : LineRef) (initiatorId : ℕ) : CacheM ι Unit := do
  check pl (initiatorId ≠ nullIdx)
  check pl (isHit = true)
  setState self p .shared

/-- The owner gives its line up. -/
def cpuFwdGetM (isHit : Bool) (p : LineRef) (initiatorId : ℕ) : CacheM ι Unit := do
  check pl (initiatorId ≠ nullIdx)
  check pl (isHit = true)
  setState self p .invalid

/-- A sharer gives its line up. -/
def cpuPutI (isHit : Bool) (p : LineRef) : CacheM ι Unit := do
  check pl (isHit = true)
  let line ← getLine self p
  check pl (line.state = .shared)
  setState self p .invalid

/-- The write-back of the victim of a miss. -/
def cpuWriteBack (isHit : Bool) (p : LineRef) : CacheM ι Unit := do
  let line ← getLine self p
  runIf (isHit = false ∧ line.state ≠ .invalid ∧ (pl.cfg self).writePolicy = .wBack) do
    match line.state with
    | .modified =>
      sendPutM pl io self line.address
      setState self p .invalid
    | .shared =>
      sendPutS pl io self line.address
      setState self p .invalid
    | .invalid => check pl False
  let line ← getLine self p
  runIf (isHit = false ∧ line.state = .shared ∧ (pl.cfg self).inclusionOfLower = .exclusive) do
    check pl False
    io.forwardEvict line.address

/-- The allocation of a line for `addr` on a miss, for a write-allocate cache. -/
def allocate (isHit : Bool) (p : LineRef) (address addr handle : ℕ) : CacheM ι Unit :=
  runIf (isHit = false ∧ (pl.cfg self).allocPolicy = .wAllocate)
    (setNewLine self p address ((pl.cfg self).geometry.tag addr) handle)

/-- The read or write of one line by the CPU. -/
def cpuAllocating (mode : CoherenceCommand) (isHit : Bool) (p : LineRef) (addr : ℕ) :
    CacheM ι Unit :=
  let base := (pl.cfg self).geometry.lineBase addr
  match mode with
  | .read => runIf (isHit = false) do
      sendGetS pl io self base
      setState self p .shared
  | .write => do
      let line ← getLine self p
      runIf (line.state ≠ .modified) do
        sendGetM pl io self line.address
        setState self p .modified
      let line ← getLine self p
      emit (.cpuWrite line.address)
  | _ => check pl False

/-- One activation of `accessCpuCache`: the number of bytes of the line that the access covers if
it continues in the next line. -/
def accessCpuLine (mode : CoherenceCommand) (size addr initiatorId handle : ℕ) :
    CacheM ι (Option ℕ) := do
  let g := (pl.cfg self).geometry
  let (isHit, p) ← lookup pl self addr
  notifyVictim pl self isHit p
  let line ← getLine self p
  check pl (isHit = false ∨ (line.address ≤ addr ∧ addr - line.address < g.cacheLineSize))
  match mode with
  | .fwdGetS => do
    cpuFwdGetS pl self isHit p initiatorId
    return none
  | .fwdGetM => do
    cpuFwdGetM pl self isHit p initiatorId
    return none
  | .putI => do
    cpuPutI pl self isHit p
    return none
  | mode => do
    runIf (mode = .readBack) (check pl False)
    cpuWriteBack pl io self isHit p
    allocate pl self isHit p (g.lineBase addr) addr handle
    let line ← getLine self p
    check pl (g.lineBase addr = line.address)
    let used := sub64 addr line.address
    cpuAllocating pl io self mode isHit p addr
    return if g.cacheLineSize < add64 used size then some (sub64 g.cacheLineSize used) else none

/-- `accessCpuCache`, with the recursion over the lines of an access bounded by `fuel`. -/
def accessCpuCache (mode : CoherenceCommand) (initiatorId handle : ℕ) :
    (fuel size addr : ℕ) → CacheM ι Unit
  | 0, _, _ => throw .undefined
  | fuel + 1, size, addr => do
    match ← accessCpuLine pl io self mode size addr initiatorId handle with
    | none => return ()
    | some accessSize =>
      accessCpuCache mode initiatorId handle fuel (sub64 size accessSize) (add64 addr accessSize)

/-! ## L2 caches -/

/-- The home makes the owner, or a sharer of an exclusive home, supply the line. -/
def l2FwdGetS (isHit : Bool) (p : LineRef) (addr initiatorId : ℕ) : CacheM ι Unit := do
  let line ← getLine self p
  check pl (initiatorId ≠ nullIdx)
  checkFound pl self addr
  runIf (isHit = false) (checkDir pl self addr fun e => e.state ≠ .invalid)
  runIf ((pl.cfg self).inclusionOfLower ≠ .exclusive ∧ ¬ (isHit = true ∧ line.state = .modified))
    (checkDir pl self addr fun e => e.state = .modified)
  runIf (isHit = true ∧ line.state = .modified) (setState self p .shared)
  runIf (isHit = false) do
    let e ← dirAt self addr
    runIf (e.state = .shared) (sendFwdGetS pl io self addr e.sharers)
  let e ← dirAt self addr
  runIf (e.state = .modified) do
    sendFwdGetS pl io self addr {e.owner}
    let e ← dirAt self addr
    dirSet self addr (.sharedBy {e.owner})
  checkDir pl self addr fun e => e.state ≠ .modified
  checkDir pl self addr fun e => e.owner = nullIdx
  let line ← getLine self p
  check pl (isHit = false ∨ line.state = .shared)

/-- The home takes the line away from the owner. -/
def l2FwdGetM (isHit : Bool) (p : LineRef) (addr initiatorId : ℕ) : CacheM ι Unit := do
  let line ← getLine self p
  check pl (initiatorId ≠ nullIdx)
  checkFound pl self addr
  runIf (¬ (isHit = true ∧ line.state = .modified)) (checkDir pl self addr fun e => e.state = .modified)
  runIf (isHit = true) (setState self p .invalid)
  let e ← dirAt self addr
  match e.state with
  | .shared =>
    sendFwdGetM pl io self addr e.sharers
    dirSet self addr .uncached
  | .modified =>
    sendFwdGetM pl io self addr {e.owner}
    dirSet self addr .uncached
  | .invalid => pure ()
  checkDir pl self addr fun e => e.state = .invalid
  checkDir pl self addr fun e => e.owner = nullIdx
  checkDir pl self addr fun e => e.sharers.card = 0
  let line ← getLine self p
  check pl (isHit = false ∨ line.state = .invalid)

/-- An upper cache replaces its shared line. -/
def l2PutS (isHit : Bool) (addr initiatorId : ℕ) : CacheM ι Unit := do
  checkFound pl self addr
  checkDir pl self addr fun e => e.state = .shared
  dirModify self addr fun e => e.eraseSharer initiatorId
  let e ← dirAt self addr
  runIf (e.sharers.card = 0) do
    dirSet self addr .uncached
    runIf (isHit = false) (sendPutS pl io self addr)
  checkDir pl self addr fun e => e.state ≠ .modified
  checkDir pl self addr fun e => e.owner = nullIdx

/-- The home takes the line away from a sharer. -/
def l2PutI (isHit : Bool) (p : LineRef) (addr : ℕ) : CacheM ι Unit := do
  let line ← getLine self p
  checkFound pl self addr
  runIf (¬ (isHit = true ∧ line.state = .shared)) (checkDir pl self addr fun e => e.state = .shared)
  runIf (isHit = true) do
    check pl (line.state ≠ .modified)
    checkDir pl self addr fun e => e.state ≠ .modified
  runIf (isHit = true) (setState self p .invalid)
  let e ← dirAt self addr
  runIf (e.state = .shared) do
    sendPutI pl io self addr e.sharers
    dirSet self addr .uncached
  checkDir pl self addr fun e => e.state = .invalid
  checkDir pl self addr fun e => e.owner = nullIdx
  checkDir pl self addr fun e => e.sharers.card = 0
  let line ← getLine self p
  check pl (isHit = false ∨ line.state = .invalid)

/-- The write-back of the victim of a miss: the home is told about a line that no upper cache
has, and about a modified line that stays shared above; its directory entry stays behind. -/
def l2WriteBack (isHit : Bool) (p : LineRef) : CacheM ι Unit := do
  let line ← getLine self p
  runIf (isHit = false ∧ line.state ≠ .invalid ∧ (pl.cfg self).writePolicy = .wBack) do
    checkFound pl self line.address
    let e ← dirAt self line.address
    match e.state with
    | .invalid =>
      if line.state = .shared then sendPutS pl io self line.address
      else sendPutM pl io self line.address
    | .shared => runIf (line.state = .modified) (sendGetS pl io self line.address)
    | .modified => pure ()
    setState self p .invalid

/-- An upper cache replaces its modified line. -/
def l2PutM (p : LineRef) (initiatorId : ℕ) : CacheM ι Unit := do
  let line ← getLine self p
  checkFound pl self line.address
  let e ← dirAt self line.address
  match e.state with
  | .invalid => check pl False
  | .shared =>
    check pl False
    dirModify self line.address fun e => e.eraseSharer initiatorId
    let e ← dirAt self line.address
    runIf (e.sharers.card = 0) (dirSet self line.address .uncached)
  | .modified =>
    check pl (initiatorId = e.owner)
    setState self p .modified
    dirSet self line.address .uncached

/-- An upper cache asks for the line to read it. -/
def l2GetS (isHit : Bool) (p : LineRef) (addr initiatorId : ℕ) : CacheM ι Unit := do
  let line ← getLine self p
  match ← dirFind self line.address with
  | none =>
    check pl (isHit = false)
    sendGetS pl io self addr
    setState self p .shared
    dirSet self line.address (.sharedBy {initiatorId})
  | some e =>
    match e.state with
    | .invalid =>
      runIf (isHit = false) do
        sendGetS pl io self addr
        setState self p .shared
      dirSet self line.address (.sharedBy {initiatorId})
    | .shared =>
      check pl (initiatorId ∉ e.sharers)
      runIf (isHit = false) do
        sendFwdGetS pl io self line.address e.sharers
        setState self p .shared
      dirModify self line.address fun e => e.insertSharer initiatorId
    | .modified =>
      check pl (initiatorId ≠ e.owner)
      sendFwdGetS pl io self line.address {e.owner}
      let e ← dirAt self line.address
      dirSet self line.address (.sharedBy {initiatorId, e.owner})
      setState self p .modified
  checkDir pl self line.address fun e => e.state = .shared
  checkDir pl self line.address fun e => e.owner = nullIdx
  checkDir pl self line.address fun e => e.sharers.card ≠ 0

/-- An upper cache asks for the line to write it. -/
def l2GetM (isHit : Bool) (p : LineRef) (addr initiatorId : ℕ) : CacheM ι Unit := do
  let line ← getLine self p
  match ← dirFind self line.address with
  | none =>
    check pl (isHit = false)
    sendGetM pl io self addr
    dirSet self line.address (.ownedBy initiatorId)
  | some e =>
    match e.state with
    | .invalid =>
      runIf (line.state ≠ .modified) (sendGetM pl io self addr)
      dirSet self line.address (.ownedBy initiatorId)
    | .shared =>
      runIf (line.state ≠ .modified) (sendGetM pl io self addr)
      dirModify self line.address fun e => e.eraseSharer initiatorId
      let e ← dirAt self line.address
      runIf (e.sharers.card ≠ 0) (sendPutI pl io self addr e.sharers)
      dirSet self line.address (.ownedBy initiatorId)
    | .modified =>
      check pl (initiatorId ≠ e.owner)
      sendFwdGetM pl io self line.address {e.owner}
      dirModify self line.address fun e => e.setOwner initiatorId
  setState self p .shared
  checkDir pl self line.address fun e => e.state = .modified
  checkDir pl self line.address fun e => e.owner = initiatorId
  checkDir pl self line.address fun e => e.sharers.card = 0

/-- The commands of an upper cache that allocate a line, and the assertion after them. -/
def l2Allocating (mode : CoherenceCommand) (isHit : Bool) (p : LineRef) (addr initiatorId : ℕ) :
    CacheM ι Unit := do
  match mode with
  | .putM => l2PutM pl self p initiatorId
  | .getS => l2GetS pl io self isHit p addr initiatorId
  | .getM => l2GetM pl io self isHit p addr initiatorId
  | _ => check pl False
  let line ← getLine self p
  let found ← dirFind self line.address
  runIf (found.isSome = true) (checkDir pl self addr fun e => e.Normal)

/-- `accessL2Cache`. Its second case for `PutI` is unreachable and left out: the command has
already returned. -/
def accessL2Cache (mode : CoherenceCommand) (size addr initiatorId handle : ℕ) : CacheM ι Unit := do
  let g := (pl.cfg self).geometry
  let (isHit, p) ← lookup pl self addr
  let line ← getLine self p
  check pl (g.offset addr = 0)
  check pl (size = g.cacheLineSize)
  check pl (isHit = false ∨ (line.address ≤ addr ∧ addr - line.address < g.cacheLineSize))
  check pl (isHit = false ∨ addr = line.address)
  runIf (isHit = true ∧ line.state = .modified) (checkDir pl self addr fun e => e.state ≠ .modified)
  notifyVictim pl self isHit p
  match mode with
  | .fwdGetS => l2FwdGetS pl io self isHit p addr initiatorId
  | .fwdGetM => l2FwdGetM pl io self isHit p addr initiatorId
  | .putS => l2PutS pl io self isHit addr initiatorId
  | .putI => l2PutI pl io self isHit p addr
  | mode => do
    l2WriteBack pl io self isHit p
    allocate pl self isHit p addr addr handle
    l2Allocating pl io self mode isHit p addr initiatorId

/-! ## Home caches -/

/-- A read request that an exclusive home serves without allocating. -/
def homeMissGetS (addr initiatorId : ℕ) : CacheM ι Unit := do
  match ← dirFind self addr with
  | none =>
    io.forwardReadData addr
    dirSet self addr (.sharedBy {initiatorId})
  | some e =>
    match e.state with
    | .invalid =>
      io.forwardReadData addr
      dirSet self addr (.sharedBy {initiatorId})
    | .shared =>
      sendFwdGetS pl io self addr e.sharers
      dirModify self addr fun e => e.insertSharer initiatorId
    | .modified =>
      runIf (e.owner ≠ initiatorId) (sendFwdGetS pl io self addr {e.owner})
      let e ← dirAt self addr
      dirSet self addr (.sharedBy {initiatorId, e.owner})
  checkDir pl self addr fun e => e.state = .shared
  checkDir pl self addr fun e => e.owner = nullIdx
  checkDir pl self addr fun e => e.sharers.card ≠ 0

/-- A write request that an exclusive home serves without allocating. -/
def homeMissGetM (addr initiatorId : ℕ) : CacheM ι Unit := do
  match ← dirFind self addr with
  | none =>
    io.forwardReadData addr
    dirSet self addr (.ownedBy initiatorId)
  | some e =>
    match e.state with
    | .invalid =>
      io.forwardReadData addr
      dirSet self addr (.ownedBy initiatorId)
    | .shared =>
      check pl (e.sharers.card ≠ 0)
      dirModify self addr fun e => e.eraseSharer initiatorId
      let e ← dirAt self addr
      runIf (e.sharers.card ≠ 0) (sendPutI pl io self addr e.sharers)
      dirSet self addr (.ownedBy initiatorId)
    | .modified =>
      check pl (e.owner ≠ nullIdx)
      check pl (e.owner ≠ initiatorId)
      sendFwdGetM pl io self addr {e.owner}
      dirModify self addr fun e => e.setOwner initiatorId
  checkDir pl self addr fun e => e.state = .modified
  checkDir pl self addr fun e => e.owner = initiatorId
  checkDir pl self addr fun e => e.sharers.card = 0

/-- An upper cache replaces its shared line. -/
def homePutS (isHit : Bool) (p : LineRef) (initiatorId : ℕ) : CacheM ι Unit := do
  let exclusive := (pl.cfg self).inclusionOfHigher = .exclusive
  let line ← getLine self p
  checkFound pl self line.address
  checkDir pl self line.address fun e => e.state = .shared
  let e ← dirAt self line.address
  match e.state with
  | .invalid | .modified =>
    check pl False
    checkDir pl self line.address fun e => e.sharers.card = 0
  | .shared =>
    check pl (0 < e.sharers.card)
    check pl (e.owner = nullIdx)
    check pl (¬ exclusive ∨ isHit = false)
    dirModify self line.address fun e => e.eraseSharer initiatorId
    let e ← dirAt self line.address
    runIf (e.sharers.card = 0) do
      dirSet self line.address .uncached
      runIf exclusive (setState self p .shared)
  checkDir pl self line.address fun e => e.state ≠ .modified
  checkDir pl self line.address fun e => e.owner = nullIdx

/-- An upper cache replaces its modified line. -/
def homePutM (p : LineRef) (initiatorId : ℕ) : CacheM ι Unit := do
  setState self p .modified
  let line ← getLine self p
  checkFound pl self line.address
  let e ← dirAt self line.address
  match e.state with
  | .invalid | .shared => check pl False
  | .modified =>
    check pl (e.owner ≠ nullIdx)
    check pl (e.sharers.card = 0)
    check pl (initiatorId = e.owner)
    dirSet self line.address .uncached

/-- An exclusive home cleans the line it holds and gives it up. -/
def homeCleanLine (p : LineRef) : CacheM ι Unit := do
  let line ← getLine self p
  runIf (line.state = .modified) (io.forwardWriteData line.address)
  setState self p .invalid

/-- An upper cache asks for the line to read it. -/
def homeGetS (isHit : Bool) (p : LineRef) (initiatorId : ℕ) : CacheM ι Unit := do
  let exclusive := (pl.cfg self).inclusionOfHigher = .exclusive
  let line ← getLine self p
  match ← dirFind self line.address with
  | none =>
    check pl (isHit = false)
    check pl (¬ exclusive)
    io.forwardReadData line.address
    setState self p .shared
    dirSet self line.address (.sharedBy {initiatorId})
  | some e =>
    match e.state with
    | .invalid =>
      check pl (e.sharers.card = 0)
      check pl (e.owner = nullIdx)
      if isHit = false then do
        check pl (¬ exclusive)
        io.forwardReadData line.address
        setState self p .shared
      else runIf exclusive (homeCleanLine io self p)
      dirSet self line.address (.sharedBy {initiatorId})
    | .shared =>
      check pl (e.owner = nullIdx)
      check pl (0 < e.sharers.card)
      if isHit = false then do
        check pl (¬ exclusive)
        sendFwdGetS pl io self line.address e.sharers
        setState self p .shared
      else runIf exclusive (homeCleanLine io self p)
      dirModify self line.address fun e => e.insertSharer initiatorId
    | .modified =>
      check pl (e.sharers.card = 0)
      check pl (e.owner ≠ nullIdx)
      runIf (e.owner ≠ initiatorId) (sendFwdGetS pl io self line.address {e.owner})
      let e ← dirAt self line.address
      dirSet self line.address (.sharedBy {initiatorId, e.owner})
      if exclusive then do
        check pl (isHit = true)
        io.forwardWriteData line.address
        setState self p .invalid
      else setState self p .modified
  checkDir pl self line.address fun e => e.state = .shared
  checkDir pl self line.address fun e => e.owner = nullIdx
  checkDir pl self line.address fun e => e.sharers.card ≠ 0

/-- Before a line is owned above, an exclusive home cleans the copy it holds if it is modified;
a clean copy stays. -/
def homeCleanModified (p : LineRef) : CacheM ι Unit := do
  let line ← getLine self p
  runIf ((pl.cfg self).inclusionOfHigher = .exclusive ∧ line.state = .modified) do
    io.forwardWriteData line.address
    setState self p .invalid

/-- An upper cache asks for the line to write it. -/
def homeGetM (isHit : Bool) (p : LineRef) (addr initiatorId : ℕ) : CacheM ι Unit := do
  let exclusive := (pl.cfg self).inclusionOfHigher = .exclusive
  let line ← getLine self p
  match ← dirFind self line.address with
  | none =>
    check pl (isHit = false)
    check pl (¬ exclusive)
    io.forwardReadData line.address
    setState self p .shared
    dirSet self line.address (.ownedBy initiatorId)
  | some e =>
    match e.state with
    | .invalid =>
      check pl (e.sharers.card = 0)
      check pl (e.owner = nullIdx)
      if isHit = false then do
        check pl (¬ exclusive)
        io.forwardReadData line.address
        setState self p .shared
      else homeCleanModified pl io self p
      dirSet self line.address (.ownedBy initiatorId)
    | .shared =>
      check pl (e.owner = nullIdx)
      check pl (0 < e.sharers.card)
      if isHit = false then do
        check pl (¬ exclusive)
        sendFwdGetS pl io self line.address e.sharers
        setState self p .shared
      else homeCleanModified pl io self p
      dirModify self line.address fun e => e.eraseSharer initiatorId
      let e ← dirAt self line.address
      check pl (initiatorId ∉ e.sharers)
      runIf (e.sharers.card ≠ 0) (sendPutI pl io self addr e.sharers)
      dirSet self line.address (.ownedBy initiatorId)
    | .modified =>
      check pl (e.owner ≠ nullIdx)
      check pl (e.owner ≠ initiatorId)
      check pl (e.sharers.card = 0)
      sendFwdGetM pl io self line.address {e.owner}
      dirModify self line.address fun e => e.setOwner initiatorId
      runIf exclusive (setState self p .invalid)
  checkDir pl self line.address fun e => e.state = .modified
  checkDir pl self line.address fun e => e.owner = initiatorId
  checkDir pl self line.address fun e => e.sharers.card = 0

/-- The commands of an upper cache for the line at `p`, and the assertion after them. -/
def homeAllocating (mode : CoherenceCommand) (isHit : Bool) (p : LineRef) (addr initiatorId : ℕ) :
    CacheM ι Unit := do
  match mode with
  | .putS => homePutS pl self isHit p initiatorId
  | .putM => homePutM pl self p initiatorId
  | .getS => homeGetS pl io self isHit p initiatorId
  | .getM => homeGetM pl io self isHit p addr initiatorId
  | _ => check pl False
  let line ← getLine self p
  let found ← dirFind self line.address
  runIf (found.isSome = true) (checkDir pl self addr fun e => e.Normal)

/-- The write-back of a modified victim, the allocation and the command itself. -/
def homeServe (mode : CoherenceCommand) (isHit : Bool) (p : LineRef) (addr initiatorId handle : ℕ) :
    CacheM ι Unit := do
  let line ← getLine self p
  runIf (isHit = false ∧ line.state = .modified ∧ (pl.cfg self).writePolicy = .wBack)
    (io.forwardWriteData line.address)
  allocate pl self isHit p addr addr handle
  let line ← getLine self p
  check pl (addr = line.address)
  homeAllocating pl io self mode isHit p addr initiatorId

/-- `accessCoherentHome`. The request is recorded with what the home finds when it arrives. -/
def accessCoherentHome (mode : CoherenceCommand) (size addr initiatorId handle : ℕ) :
    CacheM ι Unit := do
  let cfg := pl.cfg self
  let (isHit, p) ← lookup pl self addr
  let line ← getLine self p
  let found ← dirFind self addr
  emit (.homeRequest mode initiatorId addr (if isHit then line.state else .invalid) found)
  check pl (initiatorId ≠ nullIdx)
  check pl (cfg.geometry.offset addr = 0)
  check pl (size = cfg.geometry.cacheLineSize)
  check pl (isHit = false ∨
    (line.address ≤ addr ∧ addr - line.address < cfg.geometry.cacheLineSize))
  check pl (isHit = false ∨ addr = line.address)
  runIf (isHit = true ∧ line.state = .modified) (checkDir pl self addr fun e => e.state ≠ .modified)
  notifyVictim pl self isHit p
  if cfg.inclusionOfHigher = .exclusive ∧ isHit = false ∧ mode = .getS then
    homeMissGetS pl io self addr initiatorId
  else if cfg.inclusionOfHigher = .exclusive ∧ isHit = false ∧ mode = .getM then
    homeMissGetM pl io self addr initiatorId
  else homeServe pl io self mode isHit p addr initiatorId handle

end Vpsim.Memory
