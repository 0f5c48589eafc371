import Vpsim.Memory.AccessKeeps
import Vpsim.Memory.View

/-!
# The instruction cache of a CPU model

`StandaloneInstructionCache` of `ModelProvider.hpp`: a cache without coherence that only reads,
and its two hooks. One, `ForwardRead`, reports a fetch miss to the co-simulation. The other is the
eviction notifier, which takes the handle of a line for the flag of a code block.
-/

namespace Vpsim.Memory

open Vpsim.Lib

/-- The virtual functions by which `CacheBase` reaches the next level: those that
`accessNonCoherentCache` calls, and `ForwardRead`. -/
structure Hooks (ι : Type) extends DataPorts ι where
  forwardRead : (addr size : ℕ) → CacheM ι Unit

/-- The functions of `CacheBase`, which do nothing. -/
def baseHooks {ι : Type} : Hooks ι where
  forwardReadData _ _ := pure ()
  forwardWriteData _ _ := pure ()
  forwardEvict _ _ := pure ()
  backInvalidate _ _ := pure ()
  backwardRead _ _ _ := pure ()
  forwardRead _ _ := pure ()

/-- The functions of `StandaloneInstructionCache`, which overrides `ForwardRead`. -/
def instructionHooks {ι : Type} : Hooks ι :=
  { baseHooks with forwardRead := fun addr size => emit (.fetchMiss addr size) }

/-- The constructor arguments of `StandaloneInstructionCache`. The replacement policy stands where
`CacheBase` takes the number of interleaved caches. A set takes the line size as an `unsigned`. -/
structure InstructionCache where
  cacheSize : ℕ
  cacheLineSize : ℕ
  associativity : ℕ
  replPolicy : CacheReplacementPolicy := .lru
  accepted : Geometry.Accepted ⟨cacheSize, cacheLineSize, associativity, replPolicy.toNat⟩
  lineSize_lt : cacheLineSize < 2 ^ 32

namespace InstructionCache

/-- The cache that the constructor builds. -/
def config (c : InstructionCache) : CacheConfig where
  geometry := ⟨c.cacheSize, c.cacheLineSize, c.associativity, c.replPolicy.toNat⟩
  accepted := c.accepted
  notifyEvictions := true

variable (c : InstructionCache) (checks : Bool)

/-- The instruction cache on its own. -/
def platform : Platform Unit := ⟨fun _ => c.config, checks⟩

/-- One activation of the access function. -/
def fetchLine (x : Access) : CacheM Unit (Option Access) :=
  x.nonCoherentLine (c.platform checks) instructionHooks.toDataPorts ()

/-- `ReadData`. Every activation but the first covers at least one byte of the rest, so `size + 1`
activations are enough. -/
def readData (size addr initiatorId handle : ℕ) : CacheM Unit Unit :=
  Access.nonCoherent (c.platform checks) instructionHooks.toDataPorts () (size + 1)
    { mode := .read, size := size, addr := addr, initiatorId := initiatorId, handle := handle }

/-- The lines that miss during an access, in access order, each with its size. -/
def misses : ℕ → State Unit → Access → List (ℕ × ℕ)
  | 0, _, _ => []
  | n + 1, s, x =>
    let g := c.config.geometry
    (if ((s.cache ()).find g x.addr).1 then [] else [(g.lineBase x.addr, g.cacheLineSize)]) ++
      match EStateM.run (c.fetchLine checks x) s with
      | .ok (some y) s' => misses n s' y
      | _ => []

/-- The arguments of a fetch. -/
structure Fetch where
  size : ℕ
  addr : ℕ
  initiatorId : ℕ := nullIdx
  handle : ℕ := 0

/-- The access of a fetch. -/
def Fetch.access (x : Fetch) : Access :=
  { mode := .read, size := x.size, addr := x.addr, initiatorId := x.initiatorId, handle := x.handle }

/-- A fetch by `ReadData`. -/
def fetch (x : Fetch) : CacheM Unit Unit := c.readData checks x.size x.addr x.initiatorId x.handle

/-- The lines that miss during a run. -/
def runMisses : State Unit → List Fetch → List (ℕ × ℕ)
  | _, [] => []
  | s, x :: xs =>
    c.misses checks (x.size + 1) s x.access ++
      match EStateM.run (c.fetch checks x) s with
      | .ok _ s' => runMisses s' xs
      | .error _ _ => []

/-- The reported fetch misses of a trace, in the order in which they happened. -/
def reported (trace : List Event) : List (ℕ × ℕ) :=
  trace.reverse.filterMap fun
    | .fetchMiss addr size => some (addr, size)
    | _ => none

/-- The run of a list of fetches. -/
def fetchAll (xs : List Fetch) : CacheM Unit Unit := xs.forM (c.fetch checks)

variable {c checks}

/-- Nothing is recorded. -/
def SameTrace (s s' : State Unit) : Prop := s'.trace = s.trace

instance : IsPreorder (State Unit) SameTrace where
  refl _ := rfl
  trans _ _ _ h h' := h'.trans h

/-- No access function calls `ForwardRead`: a fetch leaves the trace alone. -/
theorem keeps_trace_fetch (x : Fetch) : Keeps SameTrace (c.fetch checks x) := by
  refine keeps_nonCoherent ?_ (fun _ _ => Keeps.modify fun _ => rfl) (fun addr s => ?_)
    (fun _ _ => (keeps_getLine _).bind fun _ => keeps_runIf fun _ => Keeps.modify fun _ => rfl)
    (fun _ _ => Keeps.modify fun _ => rfl) (fun _ _ _ _ => Keeps.modify fun _ => rfl) _ _
  · exact ⟨fun _ _ => .pure _, fun _ _ => .pure _, fun _ _ => .pure _, fun _ _ => .pure _,
      fun _ _ _ => .pure _⟩
  · exact wp_lookup_find (fun _ => rfl) fun _ _ _ => rfl

/-- A run of fetches reports nothing. -/
theorem trace_fetchAll (xs : List Fetch) :
    (endState (c.fetchAll checks xs (.init (c.platform checks)))).trace = [] := by
  have hkeeps : Keeps SameTrace (c.fetchAll checks xs) := Keeps.forM fun x _ => keeps_trace_fetch x
  exact (hkeeps _).endState

/-- The reported misses of a run are its misses only if the run is empty: the first fetch misses, and
no access function calls the hook that reports. -/
theorem misses_reported_iff (c : InstructionCache) (checks : Bool) (xs : List Fetch) :
    reported (endState (c.fetchAll checks xs (.init (c.platform checks)))).trace =
      c.runMisses checks (.init (c.platform checks)) xs ↔ xs = [] := by
  rw [trace_fetchAll]
  cases xs with
  | nil => exact ⟨fun _ => rfl, fun _ => rfl⟩
  | cons x xs =>
    refine ⟨fun h => ?_, fun h => by cases h⟩
    have hmiss : ¬ (((State.init (c.platform checks)).cache ()).find c.config.geometry
        x.access.addr).1 = true := by
      change ¬ ((Cache.init c.config).find c.config.geometry x.addr).1 = true
      rw [Cache.find_init]
      decide
    have hfirst : c.misses checks (x.size + 1) (.init (c.platform checks)) x.access ≠ [] := by
      unfold misses
      dsimp only
      rw [if_neg hmiss]
      exact List.cons_ne_nil _ _
    exact absurd (List.append_eq_nil_iff.1 h.symm).1 hfirst

/-- A cache of one line of 64 bytes. -/
def oneBlock : InstructionCache where
  cacheSize := 64
  cacheLineSize := 64
  associativity := 1
  accepted := ⟨by decide, by decide, by decide⟩
  lineSize_lt := by decide

/-- The first fetch misses, and the miss is not reported. -/
theorem miss_not_reported : ¬ ∀ (c : InstructionCache) (checks : Bool) (xs : List Fetch),
    reported (endState (c.fetchAll checks xs (.init (c.platform checks)))).trace =
      c.runMisses checks (.init (c.platform checks)) xs := by
  intro hclaim
  have hrun := hclaim oneBlock true [{ size := 4, addr := 0 }]
  revert hrun
  decide +kernel

end InstructionCache

end Vpsim.Memory
