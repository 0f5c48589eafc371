import Vpsim.Lib.Run
import Vpsim.Memory.NonCoherent
import Vpsim.Memory.SoundCache

/-!
# Runs of accesses to one cache

An access may cover several lines, and its access function then calls itself for the rest. A run
is a list of accesses; a condition on a run is one on each activation, in the state from which
the activation starts.

What an access finds in the cache is fixed by the lookup: whether it hits, and the place of the
line or of the victim.
-/

namespace Vpsim.Memory

open Vpsim.Lib

/-- The arguments of an access function. -/
structure Access where
  mode : CoherenceCommand
  size : ℕ
  addr : ℕ
  initiatorId : ℕ := nullIdx
  handle : ℕ := 0
deriving DecidableEq

namespace Access

/-- What is left of an access after `n` bytes. -/
def rest (x : Access) (n : ℕ) : Access :=
  { x with size := sub64 x.size n, addr := add64 x.addr n }

/-- The access is one of 64-bit addresses, and the lines of the bytes it covers have tags of 32
bits. -/
structure Fits (g : Geometry) (x : Access) : Prop where
  size_lt : x.size < 2 ^ 64
  addr_lt : x.addr < 2 ^ 64
  tag_lt : ∀ k ≤ x.size - 1, g.tag (add64 x.addr k) < wordSize

/-- Accesses below 4 GiB have small tags. -/
theorem fits_of_lt {g : Geometry} {x : Access} (h : x.addr + x.size < wordSize) : x.Fits g where
  size_lt := by
    unfold wordSize at h
    omega
  addr_lt := by
    unfold wordSize at h
    omega
  tag_lt k hk := by
    refine lt_of_le_of_lt (Geometry.tag_le _) (lt_of_le_of_lt (Nat.mod_le _ _) ?_)
    omega

variable {ι : Type} [DecidableEq ι] (pl : Platform ι) (cio : Ports ι) (io : DataPorts ι) (self : ι)

/-- One activation of `accessNonCoherentCache`, with the access that is left for the next one. -/
def nonCoherentLine (x : Access) : CacheM ι (Option Access) := do
  let n ← accessNonCoherentLine pl io self x.mode x.size x.addr x.initiatorId x.handle
  return n.map x.rest

/-- `accessNonCoherentCache`, for at most `fuel` lines. -/
def nonCoherent (fuel : ℕ) (x : Access) : CacheM ι Unit :=
  accessNonCoherentCache pl io self x.mode x.initiatorId x.handle fuel x.size x.addr

/-- `accessNonCoherentCache` goes from one activation to the next. -/
theorem nonCoherent_eq_loop (fuel : ℕ) (x : Access) :
    x.nonCoherent pl io self fuel = loop (nonCoherentLine pl io self) .undefined fuel x := by
  induction fuel generalizing x with
  | zero => rfl
  | succ fuel ih =>
    unfold nonCoherent accessNonCoherentCache loop nonCoherentLine
    rw [bind_assoc]
    congr 1
    funext n
    rw [pure_bind]
    cases n with
    | none => rfl
    | some n => exact ih (x.rest n)

/-- One activation of `accessCpuCache`, with the access that is left for the next one. -/
def cpuLine (x : Access) : CacheM ι (Option Access) := do
  let n ← accessCpuLine pl cio self x.mode x.size x.addr x.initiatorId x.handle
  return n.map x.rest

/-- `accessCpuCache`, for at most `fuel` lines. -/
def cpu (fuel : ℕ) (x : Access) : CacheM ι Unit :=
  accessCpuCache pl cio self x.mode x.initiatorId x.handle fuel x.size x.addr

/-- `accessCpuCache` goes from one activation to the next. -/
theorem cpu_eq_loop (fuel : ℕ) (x : Access) :
    x.cpu pl cio self fuel = loop (cpuLine pl cio self) .undefined fuel x := by
  induction fuel generalizing x with
  | zero => rfl
  | succ fuel ih =>
    unfold cpu accessCpuCache loop cpuLine
    rw [bind_assoc]
    refine bind_congr fun n => ?_
    rw [pure_bind]
    cases n with
    | none => rfl
    | some n => exact ih (x.rest n)

end Access

/-- A cache on its own, with assertions compiled in. -/
def Platform.single (cfg : CacheConfig) : Platform Unit := ⟨fun _ => cfg, true⟩

/-- A cache holds the line `a` in the state `x`. -/
def Cache.Holds (g : Geometry) (c : Cache) (a : ℕ) (x : CoherenceState) : Prop :=
  ∃ p : LineRef, p.index < g.nbSets ∧ c.Way p ∧ (c.line p).address = a ∧ (c.line p).state = x

variable {ι : Type} [DecidableEq ι] {pl : Platform ι} {self : ι} {s : State ι}

omit [DecidableEq ι] in
/-- Reading `Sharers` returns the ids of the address and leaves the state. -/
theorem wp_sharersOf {a : ℕ} {Q : Finset ℕ → State ι → Prop} {E : Stop → State ι → Prop}
    (hQ : Q ((s.cache self).sharers a) s) : wp (sharersOf self a) Q E s := hQ

omit [DecidableEq ι] in
/-- The eviction notification is beside the caches and the trace. -/
theorem wp_notifyVictim_beside {isHit : Bool} {p : LineRef} {Q : Unit → State ι → Prop}
    {E : Stop → State ι → Prop}
    (hQ : ∀ s', s'.cache = s.cache → s'.trace = s.trace → Q () s') :
    wp (notifyVictim pl self isHit p) Q E s := by
  apply wp.step
  change wp (runIf _ _) _ _ s
  unfold runIf
  split
  · exact hQ _ rfl rfl
  · exact hQ s rfl rfl

/-- A lookup returns what it finds and changes no line. It is undefined for the FIFO policy. -/
theorem wp_lookup_find {addr : ℕ} {Q : Bool × LineRef → State ι → Prop} {E : Stop → State ι → Prop}
    (hstop : ((s.cache self).sets ((pl.cfg self).geometry.index addr)).policy = .fifo → E .undefined s)
    (hQ : ∀ f : Cache → Cache, (s.cache self).SameLines (f (s.cache self)) →
      (f (s.cache self)).sharers = (s.cache self).sharers →
      Q ((s.cache self).find (pl.cfg self).geometry addr) (s.modifyCache self f)) :
    wp (lookup pl self addr) Q E s := by
  apply wp.step
  rw [wp_get]
  dsimp only
  generalize hg : (pl.cfg self).geometry = g at hstop hQ ⊢
  cases hacc : ((s.cache self).sets (g.index addr)).accessSet (g.tag addr % wordSize) with
  | none => exact hstop (CacheSet.policy_of_accessSet_eq_none hacc)
  | some res =>
    obtain ⟨⟨hit, way⟩, set'⟩ := res
    obtain ⟨hsame, -, -⟩ := CacheSet.accessSet_spec hacc
    have hfind : (s.cache self).find g addr = (hit, ⟨g.index addr, way⟩) := by
      unfold CacheSet.accessSet at hacc
      unfold Cache.find
      split at hacc
      · cases hacc
      · cases hl : ((s.cache self).sets (g.index addr)).locateLineInSet (g.tag addr % wordSize) <;>
          rw [hl] at hacc <;> cases hacc <;> rfl
    rw [hfind] at hQ
    exact hQ _ (.of_set hsame) rfl

end Vpsim.Memory
