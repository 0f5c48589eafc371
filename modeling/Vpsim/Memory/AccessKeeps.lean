import Vpsim.Lib.Keeps
import Vpsim.Memory.Access

/-!
# What the parts of an access keep

The access functions are made of a few elementary changes: the state of the line at the place
that the lookup has found, entries of the directory and of `Sharers`, and what happens behind
the ports. A preorder on states that these keep is kept by every part of an access function
except the lookup, the notification and the allocation.
-/

namespace Vpsim.Memory

open Vpsim.Lib

variable {ι : Type} {pl : Platform ι} {self : ι} {R : State ι → State ι → Prop}

/-- Every transfer keeps the relation. -/
structure DataPorts.Keep (R : State ι → State ι → Prop) (io : DataPorts ι) : Prop where
  forwardReadData : ∀ addr size, Keeps R (io.forwardReadData addr size)
  forwardWriteData : ∀ addr size, Keeps R (io.forwardWriteData addr size)
  forwardEvict : ∀ addr size, Keeps R (io.forwardEvict addr size)
  backInvalidate : ∀ addr ids, Keeps R (io.backInvalidate addr ids)
  backwardRead : ∀ addr size ids, Keeps R (io.backwardRead addr size ids)

section Elementary

variable [IsPreorder (State ι) R]

theorem keeps_getLine (p : LineRef) : Keeps R (getLine self p) := .getBind fun _ => .pure _

theorem keeps_sharersOf (a : ℕ) : Keeps R (sharersOf self a) := .getBind fun _ => .pure _

theorem keeps_check (c : Prop) [Decidable c] : Keeps R (check pl c) := by
  unfold check
  split
  · exact .throw _
  · exact .pure _

theorem keeps_dirFind (a : ℕ) : Keeps R (dirFind self a) := .getBind fun _ => .pure _

theorem keeps_checkFound (a : ℕ) : Keeps R (checkFound pl self a) :=
  (keeps_dirFind a).bind fun _ => keeps_check _

theorem keeps_runIf {c : Prop} [Decidable c] {x : CacheM ι Unit} (hx : c → Keeps R x) :
    Keeps R (runIf c x) := by
  unfold runIf
  split
  · rename_i hc
    exact hx hc
  · exact .pure _

variable [DecidableEq ι] (hdir : ∀ a e, Keeps R (dirSet self a e))
include hdir

theorem keeps_dirAt (a : ℕ) : Keeps R (dirAt self a) := by
  refine (keeps_dirFind a).bind fun e => ?_
  cases e with
  | some e => exact .pure _
  | none => exact (hdir _ _).bind fun _ => .pure _

theorem keeps_checkDir (a : ℕ) (c : DirectoryEntry → Prop) [DecidablePred c] :
    Keeps R (checkDir pl self a c) :=
  keeps_runIf fun _ => (keeps_dirAt hdir a).bind fun _ => keeps_check _

end Elementary

section NonCoherent

variable [DecidableEq ι] [IsPreorder (State ι) R] {io : DataPorts ι} {p : LineRef} {isHit : Bool}
  {mode : CoherenceCommand} {addr accessSize initiatorId : ℕ} (hio : io.Keep R)
  (hsharers : ∀ a f, Keeps R (sharersModify self a f))

include hio in
theorem keeps_nonCoherentInvalidate (hstate : isHit = true → Keeps R (setState self p .invalid)) :
    Keeps R (nonCoherentInvalidate pl io self isHit p) :=
  keeps_runIf fun hhit => (keeps_getLine p).bind fun _ =>
    (keeps_runIf fun _ => hio.forwardWriteData _ _).bind fun _ => hstate hhit

include hio hsharers in
theorem keeps_nonCoherentMissRead : Keeps R (nonCoherentMissRead pl io self addr initiatorId) :=
  (keeps_check _).bind fun _ => (keeps_sharersOf _).bind fun _ => Keeps.ite
    (fun _ => (hio.backwardRead _ _ _).bind fun _ => hsharers _ _)
    (fun _ => (hio.forwardReadData _ _).bind fun _ => hsharers _ _)

include hio hsharers in
theorem keeps_nonCoherentReplace (hstate : isHit = false → Keeps R (setState self p .invalid)) :
    Keeps R (nonCoherentReplace pl io self isHit p) := by
  refine (keeps_getLine p).bind fun _ => (keeps_runIf fun hc => ?_).bind fun _ => ?_
  · exact (hio.forwardWriteData _ _).bind fun _ => hstate hc.1
  · refine (keeps_getLine p).bind fun _ => (keeps_runIf fun _ => hio.forwardEvict _ _).bind fun _ => ?_
    refine keeps_runIf fun _ => (keeps_getLine p).bind fun _ => (keeps_sharersOf _).bind fun _ => ?_
    refine keeps_runIf fun _ => (hio.backInvalidate _ _).bind fun _ => ?_
    exact (keeps_getLine p).bind fun _ => hsharers _ _

/-- The command leaves the line of a miss without data: a write that a write-through cache only
passes on. -/
def CacheConfig.PassesOn (cfg : CacheConfig) (mode : CoherenceCommand) : Prop :=
  mode = .write ∧ cfg.writePolicy = .wThrough ∧ cfg.inclusionOfHigher ≠ .exclusive

include hio hsharers in
theorem keeps_nonCoherentServe
    (hstate : (isHit = false → ¬ (pl.cfg self).PassesOn mode) → ∀ x, Keeps R (setState self p x)) :
    Keeps R (nonCoherentServe pl io self mode isHit p addr accessSize initiatorId) := by
  unfold nonCoherentServe
  split
  · have hset := hstate fun _ hpass => absurd hpass.1 (by decide)
    refine (keeps_check _).bind fun _ => (keeps_getLine p).bind fun _ => (hsharers _ _).bind fun _ => ?_
    exact Keeps.ite (fun _ => (hio.forwardReadData _ _).bind fun _ => hset _)
      fun _ => keeps_runIf fun _ => hset _
  · have hstore : Keeps R (nonCoherentStore pl io self isHit p addr accessSize) := by
      refine (keeps_getLine p).bind fun _ => Keeps.ite (fun hx => ?_) fun hx => ?_
      · have hset := hstate fun _ hpass => hpass.2.2 hx.1
        refine (keeps_sharersOf _).bind fun _ => Keeps.ite (fun _ => hset _) fun _ => ?_
        exact (hio.forwardReadData _ _).bind fun _ => hset _
      · refine Keeps.ite (fun _ => hio.forwardWriteData _ _) fun hback => ?_
        have hset := hstate fun _ hpass => hback hpass.2.1
        exact (keeps_runIf fun _ => hio.forwardReadData _ _).bind fun _ => hset _
    refine (keeps_getLine p).bind fun _ => (hsharers _ _).bind fun _ => hstore.bind fun _ => ?_
    exact (keeps_getLine p).bind fun _ => keeps_runIf fun _ => hio.forwardWriteData _ _
  · have hset := hstate fun _ hpass => absurd hpass.1 (by decide)
    refine (keeps_check _).bind fun _ => (keeps_getLine p).bind fun _ => (hsharers _ _).bind fun _ => ?_
    exact (keeps_check _).bind fun _ => (keeps_sharersOf _).bind fun _ => hset _
  · exact keeps_check _

variable {size handle : ℕ}

include hio hsharers in
/-- When nothing is allocated, the allocating commands keep a relation that their state changes keep. -/
theorem keeps_nonCoherentAllocating (halloc : isHit = true ∨ (pl.cfg self).allocPolicy ≠ .wAllocate)
    (hinvalid : isHit = false → Keeps R (setState self p .invalid))
    (hstate : (isHit = false → ¬ (pl.cfg self).PassesOn mode) → ∀ x, Keeps R (setState self p x)) :
    Keeps R (nonCoherentAllocating pl io self mode isHit p size addr initiatorId handle) := by
  refine (keeps_getLine p).bind fun _ => (keeps_check _).bind fun _ => ?_
  refine (keeps_nonCoherentReplace hio hsharers hinvalid).bind fun _ => (keeps_runIf fun hc => ?_).bind
    fun _ => (keeps_getLine p).bind fun _ => (keeps_check _).bind fun _ =>
      (keeps_nonCoherentServe hio hsharers hstate).bind fun _ => .pure _
  exact absurd hc.2 (halloc.resolve_left (by simp [hc.1]))

include hio hsharers in
/-- What follows the lookup keeps a relation that the allocating commands keep. -/
theorem keeps_nonCoherentAt (hinvalid : isHit = true → Keeps R (setState self p .invalid))
    (hall : mode ≠ .invalidate →
      ¬ (isHit = false ∧ (pl.cfg self).inclusionOfHigher = .exclusive ∧ mode = .read) →
      Keeps R (nonCoherentAllocating pl io self mode isHit p size addr initiatorId handle)) :
    Keeps R (nonCoherentAt pl io self mode isHit p size addr initiatorId handle) := by
  refine .ite (fun _ => ?_) fun hmode => .ite (fun _ => ?_) fun _ => .ite (fun _ => ?_) fun hmiss => ?_
  · exact (keeps_nonCoherentInvalidate hio hinvalid).bind fun _ => .pure _
  · exact (keeps_check _).bind fun _ => .pure _
  · exact (keeps_nonCoherentMissRead hio hsharers).bind fun _ => .pure _
  · exact hall hmode hmiss

include hio hsharers in
/-- A whole access, if the lookup, the notification and the allocation keep the relation too. -/
theorem keeps_nonCoherent (hlookup : ∀ addr, Keeps R (lookup pl self addr))
    (hnotify : ∀ isHit p, Keeps R (notifyVictim pl self isHit p))
    (hstate : ∀ p x, Keeps R (setState self p x))
    (hnew : ∀ p a t h, Keeps R (setNewLine self p a t h)) (fuel : ℕ) (x : Access) :
    Keeps R (x.nonCoherent pl io self fuel) := by
  rw [Access.nonCoherent_eq_loop]
  refine Keeps.loop (fun y => ?_) fuel x
  refine Keeps.bind ((hlookup _).bind fun (isHit, p) => ?_) fun _ => .pure _
  refine (keeps_getLine p).bind fun _ => (keeps_check _).bind fun _ => (hnotify _ _).bind fun _ => ?_
  refine keeps_nonCoherentAt hio hsharers (fun _ => hstate _ _) fun _ _ => ?_
  refine (keeps_getLine p).bind fun _ => (keeps_check _).bind fun _ => ?_
  refine (keeps_nonCoherentReplace hio hsharers fun _ => hstate _ _).bind fun _ => ?_
  refine (keeps_runIf fun _ => hnew _ _ _ _).bind fun _ => (keeps_getLine p).bind fun _ => ?_
  refine (keeps_check _).bind fun _ => ?_
  exact (keeps_nonCoherentServe hio hsharers fun _ => hstate _).bind fun _ => .pure _

end NonCoherent

/-! ## The coherent access functions -/

/-- Every transaction and transfer keeps the relation. -/
structure Ports.Keep (R : State ι → State ι → Prop) (io : Ports ι) : Prop where
  socketOut0 : ∀ t, Keeps R (io.socketOut0 t)
  socketOut1 : ∀ t, Keeps R (io.socketOut1 t)
  forwardReadData : ∀ addr, Keeps R (io.forwardReadData addr)
  forwardWriteData : ∀ addr, Keeps R (io.forwardWriteData addr)
  forwardEvict : ∀ addr, Keeps R (io.forwardEvict addr)

/-- The elementary changes of a coherent access at the place `p` keep the relation. -/
structure KeepsParts [DecidableEq ι] (R : State ι → State ι → Prop) (io : Ports ι) (r : ι)
    (p : LineRef) : Prop where
  ports : io.Keep R
  setState : ∀ x, Keeps R (setState r p x)
  dirSet : ∀ a e, Keeps R (dirSet r a e)
  emit : ∀ e, Keeps R (emit e)

namespace KeepsParts

variable [DecidableEq ι] [IsPreorder (State ι) R] {io : Ports ι} {r : ι} {p : LineRef} {isHit : Bool}
  {mode : CoherenceCommand} {addr initiatorId : ℕ} (h : KeepsParts R io r p)

include h

theorem dirAt (a : ℕ) : Keeps R (Memory.dirAt r a) := keeps_dirAt h.dirSet a

theorem dirModify (a : ℕ) (f : DirectoryEntry → DirectoryEntry) : Keeps R (Memory.dirModify r a f) :=
  (h.dirAt a).bind fun _ => h.dirSet _ _

theorem checkDir (a : ℕ) (c : DirectoryEntry → Prop) [DecidablePred c] :
    Keeps R (Memory.checkDir pl r a c) := keeps_checkDir h.dirSet a c

theorem send (command : CoherenceCommand) (a : ℕ) (ids : Finset ℕ) :
    Keeps R (sendCoherenceTransaction pl io r command a ids) := by
  refine .ite (fun _ => ?_) fun _ => .ite (fun _ => h.ports.socketOut1 _) fun _ => h.ports.socketOut0 _
  refine (keeps_runIf fun _ => keeps_check _).bind fun _ => ?_
  exact .ite (fun _ => h.ports.socketOut0 _) fun _ => h.ports.socketOut1 _

theorem sendPutI (a : ℕ) (ids : Finset ℕ) : Keeps R (Memory.sendPutI pl io r a ids) :=
  (keeps_check _).bind fun _ => h.send _ _ _

theorem cpuFwdGetS : Keeps R (Memory.cpuFwdGetS pl r isHit p initiatorId) :=
  (keeps_check _).bind fun _ => (keeps_check _).bind fun _ => h.setState _

theorem cpuFwdGetM : Keeps R (Memory.cpuFwdGetM pl r isHit p initiatorId) :=
  (keeps_check _).bind fun _ => (keeps_check _).bind fun _ => h.setState _

theorem cpuPutI : Keeps R (Memory.cpuPutI pl r isHit p) :=
  (keeps_check _).bind fun _ => (keeps_getLine p).bind fun _ => (keeps_check _).bind fun _ => h.setState _

theorem cpuWriteBack : Keeps R (Memory.cpuWriteBack pl io r isHit p) := by
  refine (keeps_getLine p).bind fun line => (keeps_runIf fun _ => ?_).bind fun _ => ?_
  · cases line.state with
    | modified => exact (h.send _ _ _).bind fun _ => h.setState _
    | shared => exact (h.send _ _ _).bind fun _ => h.setState _
    | invalid => exact keeps_check _
  · refine (keeps_getLine p).bind fun _ => keeps_runIf fun _ => ?_
    exact (keeps_check _).bind fun _ => h.ports.forwardEvict _

theorem cpuAllocating : Keeps R (Memory.cpuAllocating pl io r mode isHit p addr) := by
  unfold Memory.cpuAllocating
  split
  · exact keeps_runIf fun _ => (h.send _ _ _).bind fun _ => h.setState _
  · refine (keeps_getLine p).bind fun _ => (keeps_runIf fun _ => ?_).bind fun _ => ?_
    · exact (h.send _ _ _).bind fun _ => h.setState _
    · exact (keeps_getLine p).bind fun _ => h.emit _
  · exact keeps_check _

theorem l2FwdGetS : Keeps R (Memory.l2FwdGetS pl io r isHit p addr initiatorId) := by
  refine (keeps_getLine p).bind fun _ => (keeps_check _).bind fun _ => (keeps_checkFound _).bind fun _ => ?_
  refine (keeps_runIf fun _ => h.checkDir _ _).bind fun _ => (keeps_runIf fun _ => h.checkDir _ _).bind fun _ => ?_
  refine (keeps_runIf fun _ => h.setState _).bind fun _ => (keeps_runIf fun _ => ?_).bind fun _ => ?_
  · exact (h.dirAt _).bind fun _ => keeps_runIf fun _ => h.send _ _ _
  · refine (h.dirAt _).bind fun _ => (keeps_runIf fun _ => ?_).bind fun _ => ?_
    · exact (h.send _ _ _).bind fun _ => (h.dirAt _).bind fun _ => h.dirSet _ _
    · exact (h.checkDir _ _).bind fun _ => (h.checkDir _ _).bind fun _ => (keeps_getLine p).bind fun _ =>
        keeps_check _

theorem l2FwdGetM : Keeps R (Memory.l2FwdGetM pl io r isHit p addr initiatorId) := by
  have hend : Keeps R (do
      Memory.checkDir pl r addr fun e => e.state = .invalid
      Memory.checkDir pl r addr fun e => e.owner = nullIdx
      Memory.checkDir pl r addr fun e => e.sharers.card = 0
      let line ← getLine r p
      check pl (isHit = false ∨ line.state = .invalid)) :=
    (h.checkDir _ _).bind fun _ => (h.checkDir _ _).bind fun _ => (h.checkDir _ _).bind fun _ =>
      (keeps_getLine p).bind fun _ => keeps_check _
  refine (keeps_getLine p).bind fun _ => (keeps_check _).bind fun _ => (keeps_checkFound _).bind fun _ => ?_
  refine (keeps_runIf fun _ => h.checkDir _ _).bind fun _ => (keeps_runIf fun _ => h.setState _).bind fun _ => ?_
  refine (h.dirAt _).bind fun e => ?_
  dsimp only
  split
  · exact (h.send _ _ _).bind fun _ => (h.dirSet _ _).bind fun _ => hend
  · exact (h.send _ _ _).bind fun _ => (h.dirSet _ _).bind fun _ => hend
  · exact hend

theorem l2PutS : Keeps R (Memory.l2PutS pl io r isHit addr initiatorId) := by
  refine (keeps_checkFound _).bind fun _ => (h.checkDir _ _).bind fun _ => (h.dirModify _ _).bind fun _ => ?_
  refine (h.dirAt _).bind fun _ => (keeps_runIf fun _ => ?_).bind fun _ => ?_
  · exact (h.dirSet _ _).bind fun _ => keeps_runIf fun _ => h.send _ _ _
  · exact (h.checkDir _ _).bind fun _ => h.checkDir _ _

theorem l2PutI : Keeps R (Memory.l2PutI pl io r isHit p addr) := by
  refine (keeps_getLine p).bind fun _ => (keeps_checkFound _).bind fun _ => ?_
  refine (keeps_runIf fun _ => h.checkDir _ _).bind fun _ => (keeps_runIf fun _ => ?_).bind fun _ => ?_
  · exact (keeps_check _).bind fun _ => h.checkDir _ _
  · refine (keeps_runIf fun _ => h.setState _).bind fun _ => (h.dirAt _).bind fun _ => ?_
    refine (keeps_runIf fun _ => (h.sendPutI _ _).bind fun _ => h.dirSet _ _).bind fun _ => ?_
    exact (h.checkDir _ _).bind fun _ => (h.checkDir _ _).bind fun _ => (h.checkDir _ _).bind fun _ =>
      (keeps_getLine p).bind fun _ => keeps_check _

theorem l2WriteBack : Keeps R (Memory.l2WriteBack pl io r isHit p) := by
  refine (keeps_getLine p).bind fun _ => keeps_runIf fun _ => (keeps_checkFound _).bind fun _ => ?_
  refine (h.dirAt _).bind fun e => ?_
  dsimp only
  split
  · split
    · exact (h.send _ _ _).bind fun _ => h.setState _
    · exact (h.send _ _ _).bind fun _ => h.setState _
  · exact (keeps_runIf fun _ => h.send _ _ _).bind fun _ => h.setState _
  · exact h.setState _

theorem l2PutM : Keeps R (Memory.l2PutM pl r p initiatorId) := by
  refine (keeps_getLine p).bind fun _ => (keeps_checkFound _).bind fun _ => (h.dirAt _).bind fun e => ?_
  split
  · exact keeps_check _
  · refine (keeps_check _).bind fun _ => (h.dirModify _ _).bind fun _ => (h.dirAt _).bind fun _ => ?_
    exact keeps_runIf fun _ => h.dirSet _ _
  · exact (keeps_check _).bind fun _ => (h.setState _).bind fun _ => h.dirSet _ _

theorem l2GetS : Keeps R (Memory.l2GetS pl io r isHit p addr initiatorId) := by
  have hend (a : ℕ) : Keeps R (do
      Memory.checkDir pl r a fun e => e.state = .shared
      Memory.checkDir pl r a fun e => e.owner = nullIdx
      Memory.checkDir pl r a fun e => e.sharers.card ≠ 0) :=
    (h.checkDir _ _).bind fun _ => (h.checkDir _ _).bind fun _ => h.checkDir _ _
  refine (keeps_getLine p).bind fun line => (keeps_dirFind _).bind fun entry => ?_
  dsimp only
  split
  · refine (keeps_check _).bind fun _ => (h.send _ _ _).bind fun _ => (h.setState _).bind fun _ => ?_
    exact (h.dirSet _ _).bind fun _ => hend _
  · split
    · refine (keeps_runIf fun _ => (h.send _ _ _).bind fun _ => h.setState _).bind fun _ => ?_
      exact (h.dirSet _ _).bind fun _ => hend _
    · refine (keeps_check _).bind fun _ => ?_
      refine (keeps_runIf fun _ => (h.send _ _ _).bind fun _ => h.setState _).bind fun _ => ?_
      exact (h.dirModify _ _).bind fun _ => hend _
    · refine (keeps_check _).bind fun _ => (h.send _ _ _).bind fun _ => (h.dirAt _).bind fun _ => ?_
      exact (h.dirSet _ _).bind fun _ => (h.setState _).bind fun _ => hend _

theorem l2GetM : Keeps R (Memory.l2GetM pl io r isHit p addr initiatorId) := by
  have hend (a : ℕ) : Keeps R (do
      Memory.setState r p .shared
      Memory.checkDir pl r a fun e => e.state = .modified
      Memory.checkDir pl r a fun e => e.owner = initiatorId
      Memory.checkDir pl r a fun e => e.sharers.card = 0) :=
    (h.setState _).bind fun _ => (h.checkDir _ _).bind fun _ => (h.checkDir _ _).bind fun _ => h.checkDir _ _
  refine (keeps_getLine p).bind fun line => (keeps_dirFind _).bind fun entry => ?_
  dsimp only
  split
  · exact (keeps_check _).bind fun _ => (h.send _ _ _).bind fun _ => (h.dirSet _ _).bind fun _ => hend _
  · split
    · exact (keeps_runIf fun _ => h.send _ _ _).bind fun _ => (h.dirSet _ _).bind fun _ => hend _
    · refine (keeps_runIf fun _ => h.send _ _ _).bind fun _ => (h.dirModify _ _).bind fun _ => ?_
      refine (h.dirAt _).bind fun _ => (keeps_runIf fun _ => h.sendPutI _ _).bind fun _ => ?_
      exact (h.dirSet _ _).bind fun _ => hend _
    · refine (keeps_check _).bind fun _ => (h.send _ _ _).bind fun _ => ?_
      exact (h.dirModify _ _).bind fun _ => hend _

theorem l2Allocating : Keeps R (Memory.l2Allocating pl io r mode isHit p addr initiatorId) := by
  have hend : Keeps R (do
      let line ← getLine r p
      let found ← Memory.dirFind r line.address
      runIf (found.isSome = true) (Memory.checkDir pl r addr fun e => e.Normal)) :=
    (keeps_getLine p).bind fun _ => (keeps_dirFind _).bind fun _ => keeps_runIf fun _ => h.checkDir _ _
  unfold Memory.l2Allocating
  dsimp only
  split
  · exact h.l2PutM.bind fun _ => hend
  · exact h.l2GetS.bind fun _ => hend
  · exact h.l2GetM.bind fun _ => hend
  · exact (keeps_check _).bind fun _ => hend

theorem homeMissGetS : Keeps R (Memory.homeMissGetS pl io r addr initiatorId) := by
  have hend : Keeps R (do
      Memory.checkDir pl r addr fun e => e.state = .shared
      Memory.checkDir pl r addr fun e => e.owner = nullIdx
      Memory.checkDir pl r addr fun e => e.sharers.card ≠ 0) :=
    (h.checkDir _ _).bind fun _ => (h.checkDir _ _).bind fun _ => h.checkDir _ _
  refine (keeps_dirFind _).bind fun entry => ?_
  dsimp only
  split
  · exact (h.ports.forwardReadData _).bind fun _ => (h.dirSet _ _).bind fun _ => hend
  · split
    · exact (h.ports.forwardReadData _).bind fun _ => (h.dirSet _ _).bind fun _ => hend
    · exact (h.send _ _ _).bind fun _ => (h.dirModify _ _).bind fun _ => hend
    · refine (keeps_runIf fun _ => h.send _ _ _).bind fun _ => (h.dirAt _).bind fun _ => ?_
      exact (h.dirSet _ _).bind fun _ => hend

theorem homeMissGetM : Keeps R (Memory.homeMissGetM pl io r addr initiatorId) := by
  have hend : Keeps R (do
      Memory.checkDir pl r addr fun e => e.state = .modified
      Memory.checkDir pl r addr fun e => e.owner = initiatorId
      Memory.checkDir pl r addr fun e => e.sharers.card = 0) :=
    (h.checkDir _ _).bind fun _ => (h.checkDir _ _).bind fun _ => h.checkDir _ _
  refine (keeps_dirFind _).bind fun entry => ?_
  dsimp only
  split
  · exact (h.ports.forwardReadData _).bind fun _ => (h.dirSet _ _).bind fun _ => hend
  · split
    · exact (h.ports.forwardReadData _).bind fun _ => (h.dirSet _ _).bind fun _ => hend
    · refine (keeps_check _).bind fun _ => (h.dirModify _ _).bind fun _ => (h.dirAt _).bind fun _ => ?_
      exact (keeps_runIf fun _ => h.sendPutI _ _).bind fun _ => (h.dirSet _ _).bind fun _ => hend
    · refine (keeps_check _).bind fun _ => (keeps_check _).bind fun _ => (h.send _ _ _).bind fun _ => ?_
      exact (h.dirModify _ _).bind fun _ => hend

theorem homePutS : Keeps R (Memory.homePutS pl r isHit p initiatorId) := by
  have hend (a : ℕ) : Keeps R (do
      Memory.checkDir pl r a fun e => e.state ≠ .modified
      Memory.checkDir pl r a fun e => e.owner = nullIdx) :=
    (h.checkDir _ _).bind fun _ => h.checkDir _ _
  refine (keeps_getLine p).bind fun line => (keeps_checkFound _).bind fun _ => (h.checkDir _ _).bind fun _ => ?_
  refine (h.dirAt _).bind fun e => ?_
  dsimp only
  split
  · exact (keeps_check _).bind fun _ => (h.checkDir _ _).bind fun _ => hend _
  · exact (keeps_check _).bind fun _ => (h.checkDir _ _).bind fun _ => hend _
  · refine (keeps_check _).bind fun _ => (keeps_check _).bind fun _ => (keeps_check _).bind fun _ => ?_
    refine (h.dirModify _ _).bind fun _ => (h.dirAt _).bind fun _ => (keeps_runIf fun _ => ?_).bind
      fun _ => hend _
    exact (h.dirSet _ _).bind fun _ => keeps_runIf fun _ => h.setState _

theorem homePutM : Keeps R (Memory.homePutM pl r p initiatorId) := by
  refine (h.setState _).bind fun _ => (keeps_getLine p).bind fun _ => (keeps_checkFound _).bind fun _ => ?_
  refine (h.dirAt _).bind fun e => ?_
  split
  · exact keeps_check _
  · exact keeps_check _
  · exact (keeps_check _).bind fun _ => (keeps_check _).bind fun _ => (keeps_check _).bind fun _ =>
      h.dirSet _ _

theorem homeCleanLine : Keeps R (Memory.homeCleanLine io r p) :=
  (keeps_getLine p).bind fun _ => (keeps_runIf fun _ => h.ports.forwardWriteData _).bind fun _ =>
    h.setState _

theorem homeCleanModified : Keeps R (Memory.homeCleanModified pl io r p) :=
  (keeps_getLine p).bind fun _ => keeps_runIf fun _ => (h.ports.forwardWriteData _).bind fun _ =>
    h.setState _

theorem homeGetS : Keeps R (Memory.homeGetS pl io r isHit p initiatorId) := by
  have hend (a : ℕ) : Keeps R (do
      Memory.checkDir pl r a fun e => e.state = .shared
      Memory.checkDir pl r a fun e => e.owner = nullIdx
      Memory.checkDir pl r a fun e => e.sharers.card ≠ 0) :=
    (h.checkDir _ _).bind fun _ => (h.checkDir _ _).bind fun _ => h.checkDir _ _
  refine (keeps_getLine p).bind fun line => (keeps_dirFind _).bind fun entry => ?_
  dsimp only
  split
  · refine (keeps_check _).bind fun _ => (keeps_check _).bind fun _ => (h.ports.forwardReadData _).bind fun _ => ?_
    exact (h.setState _).bind fun _ => (h.dirSet _ _).bind fun _ => hend _
  · split
    · refine (keeps_check _).bind fun _ => (keeps_check _).bind fun _ => .ite (fun _ => ?_) fun _ => ?_
      · refine (keeps_check _).bind fun _ => (h.ports.forwardReadData _).bind fun _ => ?_
        exact (h.setState _).bind fun _ => (h.dirSet _ _).bind fun _ => hend _
      · exact (keeps_runIf fun _ => h.homeCleanLine).bind fun _ => (h.dirSet _ _).bind fun _ => hend _
    · refine (keeps_check _).bind fun _ => (keeps_check _).bind fun _ => .ite (fun _ => ?_) fun _ => ?_
      · refine (keeps_check _).bind fun _ => (h.send _ _ _).bind fun _ => ?_
        exact (h.setState _).bind fun _ => (h.dirModify _ _).bind fun _ => hend _
      · exact (keeps_runIf fun _ => h.homeCleanLine).bind fun _ => (h.dirModify _ _).bind fun _ => hend _
    · refine (keeps_check _).bind fun _ => (keeps_check _).bind fun _ => ?_
      refine (keeps_runIf fun _ => h.send _ _ _).bind fun _ => (h.dirAt _).bind fun _ => ?_
      refine (h.dirSet _ _).bind fun _ => .ite (fun _ => ?_) fun _ => ?_
      · refine (keeps_check _).bind fun _ => (h.ports.forwardWriteData _).bind fun _ => ?_
        exact (h.setState _).bind fun _ => hend _
      · exact (h.setState _).bind fun _ => hend _

theorem homeGetM : Keeps R (Memory.homeGetM pl io r isHit p addr initiatorId) := by
  have hend (a : ℕ) : Keeps R (do
      Memory.checkDir pl r a fun e => e.state = .modified
      Memory.checkDir pl r a fun e => e.owner = initiatorId
      Memory.checkDir pl r a fun e => e.sharers.card = 0) :=
    (h.checkDir _ _).bind fun _ => (h.checkDir _ _).bind fun _ => h.checkDir _ _
  have hown (a : ℕ) : Keeps R (do
      Memory.dirModify r a fun e => e.eraseSharer initiatorId
      let e ← Memory.dirAt r a
      check pl (initiatorId ∉ e.sharers)
      runIf (e.sharers.card ≠ 0) (Memory.sendPutI pl io r addr e.sharers)
      Memory.dirSet r a (.ownedBy initiatorId)
      Memory.checkDir pl r a fun e => e.state = .modified
      Memory.checkDir pl r a fun e => e.owner = initiatorId
      Memory.checkDir pl r a fun e => e.sharers.card = 0) :=
    (h.dirModify _ _).bind fun _ => (h.dirAt _).bind fun _ => (keeps_check _).bind fun _ =>
      (keeps_runIf fun _ => h.sendPutI _ _).bind fun _ => (h.dirSet _ _).bind fun _ => hend _
  refine (keeps_getLine p).bind fun line => (keeps_dirFind _).bind fun entry => ?_
  dsimp only
  split
  · refine (keeps_check _).bind fun _ => (keeps_check _).bind fun _ => (h.ports.forwardReadData _).bind fun _ => ?_
    exact (h.setState _).bind fun _ => (h.dirSet _ _).bind fun _ => hend _
  · split
    · refine (keeps_check _).bind fun _ => (keeps_check _).bind fun _ => .ite (fun _ => ?_) fun _ => ?_
      · refine (keeps_check _).bind fun _ => (h.ports.forwardReadData _).bind fun _ => ?_
        exact (h.setState _).bind fun _ => (h.dirSet _ _).bind fun _ => hend _
      · exact h.homeCleanModified.bind fun _ => (h.dirSet _ _).bind fun _ => hend _
    · refine (keeps_check _).bind fun _ => (keeps_check _).bind fun _ => .ite (fun _ => ?_) fun _ => ?_
      · refine (keeps_check _).bind fun _ => (h.send _ _ _).bind fun _ => ?_
        exact (h.setState _).bind fun _ => hown _
      · exact h.homeCleanModified.bind fun _ => hown _
    · refine (keeps_check _).bind fun _ => (keeps_check _).bind fun _ => (keeps_check _).bind fun _ => ?_
      refine (h.send _ _ _).bind fun _ => (h.dirModify _ _).bind fun _ => ?_
      exact (keeps_runIf fun _ => h.setState _).bind fun _ => hend _

theorem homeAllocating : Keeps R (Memory.homeAllocating pl io r mode isHit p addr initiatorId) := by
  have hend : Keeps R (do
      let line ← getLine r p
      let found ← Memory.dirFind r line.address
      runIf (found.isSome = true) (Memory.checkDir pl r addr fun e => e.Normal)) :=
    (keeps_getLine p).bind fun _ => (keeps_dirFind _).bind fun _ => keeps_runIf fun _ => h.checkDir _ _
  unfold Memory.homeAllocating
  dsimp only
  split
  · exact h.homePutS.bind fun _ => hend
  · exact h.homePutM.bind fun _ => hend
  · exact h.homeGetS.bind fun _ => hend
  · exact h.homeGetM.bind fun _ => hend
  · exact (keeps_check _).bind fun _ => hend

end KeepsParts

end Vpsim.Memory
