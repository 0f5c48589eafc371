import Vpsim.Memory.Geometry
import Vpsim.Memory.CacheSet
import Mathlib.Data.Finset.Card

/-!
# State and primitive operations of the caches

A platform is a family of caches with fixed configurations. Its state holds the lines and
directories of every cache, the traffic of the caches with the memory, and the eviction
notifications. Access functions run in a state monad that keeps its state when it stops.

Assertions are evaluated when the platform is built with them and are absent otherwise, as
with `NDEBUG`. `Directory[a]` is `std::map::operator[]`: reading an absent entry inserts the
value-initialised one, whose `State` is the first enumerator, `Modified`.

Statistics counters, delays, time stamps, line data and response codes are left out: no
access function reads them back.
-/

namespace Vpsim.Memory

/-- Commands of `CoherenceExtension.hpp`. -/
inductive CoherenceCommand
  | getS | getM | fwdGetS | fwdGetM | putS | putM | putI | read | write | evict | invalidate
  | invS | invM | readBack
deriving DecidableEq, Repr

/-- The commands that a cache sends to the upper caches named by its directory. -/
def CoherenceCommand.toHigher : CoherenceCommand → Bool
  | .fwdGetS | .fwdGetM | .putI | .invS | .invM => true
  | _ => false

/-- The write policies. -/
inductive CacheWritePolicy
  | wThrough
  | wBack
deriving DecidableEq, Repr

/-- The allocation policies. -/
inductive CacheAllocPolicy
  | wAllocate
  | wAround
deriving DecidableEq, Repr

/-- The inclusion policies. -/
inductive CacheInclusionPolicy
  | nine
  | inclusive
  | exclusive
deriving DecidableEq, Repr

/-- `NULL_IDX`. -/
def nullIdx : ℕ := 0xffffffff

/-- `DirectoryEntry`. -/
structure DirectoryEntry where
  state : CoherenceState
  owner : ℕ
  sharers : Finset ℕ
deriving DecidableEq

namespace DirectoryEntry

/-- The value-initialised entry that `std::map::operator[]` inserts. -/
def default : DirectoryEntry := ⟨.modified, 0, ∅⟩

/-- No upper cache has the line. -/
def uncached : DirectoryEntry := ⟨.invalid, nullIdx, ∅⟩

/-- The caches `ids` have the line in shared state. -/
def sharedBy (ids : Finset ℕ) : DirectoryEntry := ⟨.shared, nullIdx, ids⟩

/-- The cache `id` has the line in modified state. -/
def ownedBy (id : ℕ) : DirectoryEntry := ⟨.modified, id, ∅⟩

/-- `Sharers.erase (id)`. -/
def eraseSharer (e : DirectoryEntry) (id : ℕ) : DirectoryEntry :=
  { e with sharers := e.sharers.erase id }

/-- `Sharers.insert (id)`. -/
def insertSharer (e : DirectoryEntry) (id : ℕ) : DirectoryEntry :=
  { e with sharers := insert id e.sharers }

/-- `Owner = id`. -/
def setOwner (e : DirectoryEntry) (id : ℕ) : DirectoryEntry := { e with owner := id }

/-- The entry is in one of its three normal forms, the last assertion of the access functions. -/
def Normal (e : DirectoryEntry) : Prop :=
  (e.state = .invalid ∧ e.owner = nullIdx ∧ e.sharers = ∅) ∨
    (e.state = .shared ∧ e.owner = nullIdx ∧ e.sharers ≠ ∅) ∨
    (e.state = .modified ∧ e.owner ≠ nullIdx ∧ e.sharers = ∅)

instance (e : DirectoryEntry) : Decidable e.Normal := by unfold Normal; infer_instance

end DirectoryEntry

/-- The constructor arguments of a cache. -/
structure CacheConfig where
  geometry : Geometry
  accepted : geometry.Accepted
  replPolicy : CacheReplacementPolicy := .lru
  writePolicy : CacheWritePolicy := .wBack
  allocPolicy : CacheAllocPolicy := .wAllocate
  level : ℕ := 1
  inclusionOfHigher : CacheInclusionPolicy := .nine
  inclusionOfLower : CacheInclusionPolicy := .nine
  isHome : Bool := false
  id : ℕ := nullIdx
  notifyEvictions : Bool := false

/-- The state of one cache: `CacheLines`, `Directory` and `Sharers`. -/
structure Cache where
  sets : ℕ → CacheSet
  directory : ℕ → Option DirectoryEntry
  sharers : ℕ → Finset ℕ

/-- An empty cache. -/
def Cache.init (cfg : CacheConfig) : Cache where
  sets _ := .init cfg.geometry.cacheLineSize cfg.geometry.associativity cfg.replPolicy
    cfg.accepted.associativity_pos
  directory _ := none
  sharers _ := ∅

/-- The traffic of a platform that its users see: the requests that the home receives, with
the state of the line and the directory entry it finds, the transfers with the memory, the
writes of the CPUs that have completed, the transfers of a cache without coherence, which name
the bytes they cover, and the fetch misses that are reported to the co-simulation. -/
inductive Event
  | homeRequest (command : CoherenceCommand) (initiatorId addr : ℕ) (found : CoherenceState)
      (entry : Option DirectoryEntry)
  | forwardReadData (addr : ℕ)
  | forwardWriteData (addr : ℕ)
  | cpuWrite (addr : ℕ)
  | transfer (command : CoherenceCommand) (addr size : ℕ)
  | fetchMiss (addr size : ℕ)
deriving DecidableEq

/-- Why a run stops: a failing assertion, or a use of the line pointer that `accessSet` leaves
unassigned for the FIFO policy. -/
inductive Stop
  | assertion
  | undefined
deriving DecidableEq, Repr

/-- A family of caches, and whether assertions are compiled in. -/
structure Platform (ι : Type) where
  cfg : ι → CacheConfig
  checks : Bool

/-- The state of a platform. The latest event comes first. -/
structure State (ι : Type) where
  cache : ι → Cache
  trace : List Event
  notified : List ℕ

/-- All caches empty. -/
def State.init {ι : Type} (pl : Platform ι) : State ι where
  cache i := .init (pl.cfg i)
  trace := []
  notified := []

/-- Programs over the caches of a platform. -/
abbrev CacheM (ι : Type) := EStateM Stop (State ι)

/-- The place of a line in its cache. -/
structure LineRef where
  index : ℕ
  way : ℕ
deriving DecidableEq, Repr

section Primitives

variable {ι : Type} [DecidableEq ι] (pl : Platform ι) (self : ι)

/-- A statement under a condition. -/
def runIf (c : Prop) [Decidable c] (x : CacheM ι Unit) : CacheM ι Unit := if c then x else pure ()

/-- `assert (c)`. -/
def check (c : Prop) [Decidable c] : CacheM ι Unit :=
  if pl.checks ∧ ¬ c then throw .assertion else pure ()

/-- Change one cache of the state. -/
def State.modifyCache (s : State ι) (f : Cache → Cache) : State ι :=
  { s with cache := Function.update s.cache self (f (s.cache self)) }

/-- Changing a cache changes this cache by the function given. -/
theorem State.modifyCache_cache (s : State ι) (f : Cache → Cache) :
    (s.modifyCache self f).cache self = f (s.cache self) := Function.update_self ..

/-- Append an event. -/
def emit (e : Event) : CacheM ι Unit := modify fun s => { s with trace := e :: s.trace }

/-- The line at a place. -/
def Cache.line (c : Cache) (p : LineRef) : CacheLine := (c.sets p.index).line p.way

/-- Change the line at a place. -/
def Cache.modifyLine (c : Cache) (p : LineRef) (f : CacheLine → CacheLine) : Cache :=
  { c with sets := Function.update c.sets p.index ((c.sets p.index).modifyLine p.way f) }

/-- Read the line that a line pointer refers to. -/
def getLine (p : LineRef) : CacheM ι CacheLine := return ((← get).cache self).line p

/-- `line->setState (state)`. -/
def setState (p : LineRef) (state : CoherenceState) : CacheM ι Unit :=
  modify fun s => s.modifyCache self fun c => c.modifyLine p fun l => l.setState state

/-- `line->setNewLine (address, tag); line->handle = handle`. -/
def setNewLine (p : LineRef) (address tag handle : ℕ) : CacheM ι Unit :=
  modify fun s => s.modifyCache self fun c => c.modifyLine p fun l => l.setNewLine address tag handle

/-- `Directory.find (addr)`. -/
def dirFind (addr : ℕ) : CacheM ι (Option DirectoryEntry) :=
  return ((← get).cache self).directory addr

/-- `Directory[addr] = entry`. -/
def dirSet (addr : ℕ) (entry : DirectoryEntry) : CacheM ι Unit :=
  modify fun s => s.modifyCache self fun c =>
    { c with directory := Function.update c.directory addr (some entry) }

/-- `Directory[addr]` read as a value. -/
def dirAt (addr : ℕ) : CacheM ι DirectoryEntry := do
  match ← dirFind self addr with
  | some entry => return entry
  | none =>
    dirSet self addr .default
    return .default

/-- A method call on `Directory[addr]`. -/
def dirModify (addr : ℕ) (f : DirectoryEntry → DirectoryEntry) : CacheM ι Unit := do
  let entry ← dirAt self addr
  dirSet self addr (f entry)

/-- `assert (Directory.find (addr) != Directory.end ())`. -/
def checkFound (addr : ℕ) : CacheM ι Unit := do
  let entry ← dirFind self addr
  check pl (entry.isSome = true)

/-- An assertion on `Directory[addr]`; the entry is looked up only if it is evaluated. -/
def checkDir (addr : ℕ) (c : DirectoryEntry → Prop) [DecidablePred c] : CacheM ι Unit :=
  runIf (pl.checks = true) do
    let entry ← dirAt self addr
    check pl (c entry)

/-- The lookup with which every access function starts: the address is decomposed and the set
is accessed with the tag, converted to `unsigned`. -/
def lookup (addr : ℕ) : CacheM ι (Bool × LineRef) := do
  let s ← get
  let g := (pl.cfg self).geometry
  match ((s.cache self).sets (g.index addr)).accessSet (g.tag addr % wordSize) with
  | none => throw .undefined
  | some ((isHit, way), set') =>
    MonadStateOf.set (s.modifyCache self fun c =>
      { c with sets := Function.update c.sets (g.index addr) set' })
    return (isHit, ⟨g.index addr, way⟩)

/-- The eviction notification that every access function makes for a shared victim. -/
def notifyVictim (isHit : Bool) (p : LineRef) : CacheM ι Unit := do
  let line ← getLine self p
  runIf (isHit = false ∧ line.state = .shared ∧ (pl.cfg self).notifyEvictions = true)
    (modify fun s => { s with notified := line.handle :: s.notified })

end Primitives

/-- A coherence transaction: the payload fields and the extension that the access functions
read. -/
structure Transaction where
  command : CoherenceCommand
  addr : ℕ
  size : ℕ
  initiatorId : ℕ
  targetIds : Finset ℕ
deriving DecidableEq

/-- Where the transactions of a cache go: its two output sockets for coherence transactions and
the memory side for its data transfers. -/
structure Ports (ι : Type) where
  socketOut0 : Transaction → CacheM ι Unit
  socketOut1 : Transaction → CacheM ι Unit
  forwardReadData : ℕ → CacheM ι Unit
  forwardWriteData : ℕ → CacheM ι Unit
  forwardEvict : ℕ → CacheM ι Unit

section Sends

variable {ι : Type} (pl : Platform ι) (io : Ports ι) (self : ι)

/-- `Cache::send_coherence_transaction`: commands for upper caches carry their targets and leave
by the second socket, except from a home, whose only socket leads to the interconnect. -/
def sendCoherenceTransaction (command : CoherenceCommand) (addr : ℕ) (targetIds : Finset ℕ) :
    CacheM ι Unit :=
  let cfg := pl.cfg self
  let trans (ids : Finset ℕ) : Transaction := ⟨command, addr, cfg.geometry.cacheLineSize, cfg.id, ids⟩
  if command.toHigher then do
    runIf (cfg.isHome = true) (check pl (0 < targetIds.card))
    if cfg.isHome then io.socketOut0 (trans targetIds) else io.socketOut1 (trans targetIds)
  else if command = .invalidate ∨ command = .readBack then io.socketOut1 (trans ∅)
  else io.socketOut0 (trans ∅)

/-- `SendGetS`. -/
def sendGetS (addr : ℕ) : CacheM ι Unit := sendCoherenceTransaction pl io self .getS addr ∅

/-- `SendGetM`. -/
def sendGetM (addr : ℕ) : CacheM ι Unit := sendCoherenceTransaction pl io self .getM addr ∅

/-- `SendPutS`. -/
def sendPutS (addr : ℕ) : CacheM ι Unit := sendCoherenceTransaction pl io self .putS addr ∅

/-- `SendPutM`. -/
def sendPutM (addr : ℕ) : CacheM ι Unit := sendCoherenceTransaction pl io self .putM addr ∅

/-- `SendFwdGetS`. -/
def sendFwdGetS (addr : ℕ) (targetIds : Finset ℕ) : CacheM ι Unit :=
  sendCoherenceTransaction pl io self .fwdGetS addr targetIds

/-- `SendFwdGetM`. -/
def sendFwdGetM (addr : ℕ) (targetIds : Finset ℕ) : CacheM ι Unit :=
  sendCoherenceTransaction pl io self .fwdGetM addr targetIds

/-- `SendPutI`, which asserts on its own that it has targets. -/
def sendPutI (addr : ℕ) (targetIds : Finset ℕ) : CacheM ι Unit := do
  check pl (0 < targetIds.card)
  sendCoherenceTransaction pl io self .putI addr targetIds

end Sends

end Vpsim.Memory
