import Vpsim.Memory.View
import Vpsim.Memory.Hierarchy

/-!
# The invariant of the coherent hierarchy

A node is an L2 cache with its L1. What a node holds of a line is read off the line state and
the directory entry of the L2 and the line state of the L1; only the combinations of `Node`
occur. The directory of the home is precise: it names exactly the nodes that hold a line. This
does not depend on the lines that the home itself has.

`HomeInv` is about the home's own lines: a line it has is in its directory, the line of a CPU
write that has not reached the memory is modified somewhere, and a modified line of the home is
not owned by a node unless one of the two requests of `Unforeseen` came before. An exclusive home
has no line that a node holds, unless a `SharedHit` came before.
-/

namespace Vpsim.Memory

open Vpsim.Lib

/-- What a node holds of a line. -/
inductive Holding
  | none
  | shared
  | modified
deriving DecidableEq

/-- The requests that the home does not handle as its assertions expect: a request for a line that
it does not have but that is shared above, and a request to own a line that it has modified. -/
def Event.Unforeseen : Event → Prop
  | .homeRequest .getS _ _ .invalid (some e) => e.state = .shared
  | .homeRequest .getM _ _ .invalid (some e) => e.state = .shared
  | .homeRequest .getM _ _ .modified _ => True
  | _ => False

/-- A request to own a line of which the home has a clean copy. -/
def Event.SharedHit : Event → Prop
  | .homeRequest .getM _ _ .shared _ => True
  | _ => False

/-- A request to read a line that the home does not have and that a node owns. -/
def Event.OwnedMiss (a : ℕ) : Event → Prop
  | .homeRequest .getS _ b .invalid (some e) => b = a ∧ e.state = .modified
  | _ => False

/-- A CPU has written the line `a` since the home last wrote it to the memory. The latest event
comes first. -/
def Dirty (a : ℕ) : List Event → Prop
  | [] => False
  | .cpuWrite b :: t => b = a ∨ Dirty a t
  | .forwardWriteData b :: t => b ≠ a ∧ Dirty a t
  | _ :: t => Dirty a t

namespace Hierarchy

variable {n : ℕ} (H : Hierarchy n)

/-- The hierarchies for which the assertions of the access functions are meant. -/
structure Strict : Prop where
  not_exclusive : ¬ H.Exclusive
  id_ne : ∀ r, (H.cfg r).id ≠ nullIdx

/-- The trace accounts for a failing assertion. -/
def Excused (t : List Event) : Prop := H.Strict → ∃ e ∈ t, e.Unforeseen

/-- How a run may stop: before its first access if a set has the FIFO policy, and at an
assertion after an unforeseen request. -/
def Stops : Stop → State (CacheRef n) → Prop
  | .undefined, _ => ∃ r, (H.cfg r).replPolicy = .fifo
  | .assertion, s => H.checks = true ∧ H.Excused s.trace

/-- What the node `i` holds of the line `a`. -/
def Node (v : View (CacheRef n)) (a : ℕ) (i : Fin n) : Holding → Prop
  | .none =>
    v.st (.l2 i) a = .invalid ∧ (v.dir (.l2 i) a = none ∨ v.dir (.l2 i) a = some .uncached) ∧
      v.st (.l1 i) a = .invalid
  | .shared =>
    (v.st (.l2 i) a = .shared ∧ v.dir (.l2 i) a = some .uncached ∧ v.st (.l1 i) a = .invalid) ∨
      (v.st (.l2 i) a ≠ .modified ∧ v.dir (.l2 i) a = some (.sharedBy {H.l1Id i}) ∧
        v.st (.l1 i) a = .shared)
  | .modified =>
    (v.st (.l2 i) a = .modified ∧ v.dir (.l2 i) a = some .uncached ∧ v.st (.l1 i) a = .invalid) ∨
      (v.st (.l2 i) a = .modified ∧ v.dir (.l2 i) a = some (.sharedBy {H.l1Id i}) ∧
        v.st (.l1 i) a = .shared) ∨
      (v.st (.l2 i) a ≠ .modified ∧ v.dir (.l2 i) a = some (.ownedBy (H.l1Id i)) ∧
        v.st (.l1 i) a = .modified)

/-- The entry `D` of the home names exactly the nodes that hold the line. -/
inductive HomeIs (D : Option DirectoryEntry) (hold : Fin n → Holding) : Prop
  | uncached (hD : D = none ∨ D = some .uncached) (hhold : ∀ i, hold i = .none)
  | shared (T : Finset (Fin n)) (hT : T.Nonempty) (hD : D = some (.sharedBy (T.image H.l2Id)))
      (hhold : ∀ i, hold i = if i ∈ T then .shared else .none)
  | owned (o : Fin n) (hD : D = some (.ownedBy (H.l2Id o)))
      (hhold : ∀ i, hold i = if i = o then .modified else .none)

/-- The directories are precise for the line `a`. -/
def Precise (v : View (CacheRef n)) (a : ℕ) : Prop :=
  ∃ hold, (∀ i, H.Node v a i (hold i)) ∧ H.HomeIs (v.dir .home a) hold

/-- The home's own line for `a`. -/
structure HomeInv (v : View (CacheRef n)) (a : ℕ) : Prop where
  present : v.st .home a ≠ .invalid → ∃ e, v.dir .home a = some e
  exclusive : H.Exclusive → v.st .home a = .modified → v.dir .home a = some .uncached
  excluded : H.Exclusive → (∀ e ∈ v.trace, ¬ e.SharedHit) → v.st .home a ≠ .invalid →
    v.dir .home a = some .uncached
  dirty : Dirty a v.trace → (H.Exclusive → ∀ e ∈ v.trace, ¬ e.OwnedMiss a) →
    (∃ o, v.dir .home a = some (.ownedBy o)) ∨ v.st .home a = .modified
  strict : ¬ H.Excused v.trace → v.st .home a = .modified →
    ∀ o, v.dir .home a ≠ some (.ownedBy o)

/-- The invariant between two CPU accesses. -/
structure Inv (v : View (CacheRef n)) : Prop where
  precise : ∀ a, H.Precise v a
  home : ∀ a, H.HomeInv v a

end Hierarchy

end Vpsim.Memory
