import Vpsim.Memory.WriteAround
import Vpsim.Memory.EvictionNotice

/-!
# The lines of an access

An access that does not end in its line is served piece by piece: an activation of
`accessCpuCache` or `accessNonCoherentCache` takes the bytes up to the end of the line that its
line pointer refers to and calls the function again for the rest. The length of a piece is
computed, in 64 bits, from the address stored in that line.

The activations are repeated here with the data pointer and with what they return of their piece.
The transfers are arbitrary programs over the caches, which may change the lines in any way.
-/

namespace Vpsim.Memory

open Vpsim.Lib

/-- What an activation takes of an access: the line it works on, its bytes, and where their data
is, if the access has data. -/
structure Visit where
  line : ℕ
  addr : ℕ
  accessSize : ℕ
  data : Option ℕ
deriving DecidableEq, Repr

section Activations

variable {ι : Type} [DecidableEq ι] (pl : Platform ι) (io : Ports ι) (dio : DataPorts ι) (self : ι)

/-- The part of `accessCpuCache` that follows the allocation. -/
def cpuPiece (data : Option ℕ) (x : Access) (isHit : Bool) (p : LineRef) : CacheM ι (Visit × Bool) := do
  let g := (pl.cfg self).geometry
  let line ← getLine self p
  check pl (g.lineBase x.addr = line.address)
  let used := sub64 x.addr line.address
  let alignment := g.cacheLineSize < add64 used x.size
  let accessSize := if alignment then sub64 g.cacheLineSize used else x.size
  cpuAllocating pl io self x.mode isHit p x.addr
  return (⟨line.address, x.addr, accessSize, data⟩, decide alignment)

/-- One activation of `accessCpuCache` for a read or a write: its piece, and `alignment`. -/
def cpuVisit (data : Option ℕ) (x : Access) : CacheM ι (Visit × Bool) := do
  let g := (pl.cfg self).geometry
  let (isHit, p) ← lookup pl self x.addr
  notifyVictim pl self isHit p
  let line ← getLine self p
  check pl (isHit = false ∨ (line.address ≤ x.addr ∧ x.addr - line.address < g.cacheLineSize))
  cpuWriteBack pl io self isHit p
  allocate pl self isHit p (g.lineBase x.addr) x.addr x.handle
  cpuPiece pl io self data x isHit p

/-- The part of `accessNonCoherentCache` that follows the allocation. -/
def nonCoherentPiece (data : Option ℕ) (x : Access) (isHit : Bool) (p : LineRef) : CacheM ι (Visit × Bool) := do
  let g := (pl.cfg self).geometry
  let line ← getLine self p
  let used := sub64 x.addr line.address
  let alignment := g.cacheLineSize < add64 used x.size
  let accessSize := if alignment then sub64 g.cacheLineSize used else x.size
  check pl (accessSize ≤ g.cacheLineSize)
  nonCoherentServe pl dio self x.mode isHit p x.addr accessSize x.initiatorId
  return (⟨line.address, x.addr, accessSize, data⟩, decide alignment)

/-- One activation of `accessNonCoherentCache` for a read or a write of a cache that does not
exclude the lines of the upper ones. -/
def nonCoherentVisit (data : Option ℕ) (x : Access) : CacheM ι (Visit × Bool) := do
  let g := (pl.cfg self).geometry
  let (isHit, p) ← lookup pl self x.addr
  let line ← getLine self p
  check pl (isHit = false ∨ line.state ≠ .invalid)
  notifyVictim pl self isHit p
  let line ← getLine self p
  check pl (isHit = false ∨ (line.address ≤ x.addr ∧ x.addr - line.address < g.cacheLineSize))
  nonCoherentReplace pl dio self isHit p
  allocate pl self isHit p (g.lineBase x.addr) x.addr x.handle
  nonCoherentPiece pl dio self data x isHit p

/-- The recursion over the lines, bounded by `fuel`: `src_data_ptr` is advanced by the bytes that have
been handled, if it is not null. -/
def visitLines (visit : Option ℕ → Access → CacheM ι (Visit × Bool)) :
    (fuel : ℕ) → (data : Option ℕ) → (x : Access) → CacheM ι (List Visit)
  | 0, _, _ => throw .undefined
  | fuel + 1, data, x => do
    let (v, alignment) ← visit data x
    if alignment then do
      let vs ← visitLines visit fuel (data.map (· + v.accessSize)) (x.rest v.accessSize)
      return v :: vs
    else return [v]

/-- The next access after an activation. -/
def Access.after (x : Access) (v : Visit × Bool) : Option Access :=
  if v.2 then some (x.rest v.1.accessSize) else none

omit [DecidableEq ι] in
theorem runIf_false {x : CacheM ι Unit} {c : Prop} [Decidable c] (hc : ¬ c) : runIf c x = pure () := if_neg hc

/-- The rest of an access after a piece that ends in the line, and none after the last piece. -/
theorem Access.map_rest (x : Access) (c : Prop) [Decidable c] {n n' : ℕ} (h : c → n = n') :
    (if c then some n else none).map x.rest = if decide c = true then some (x.rest n') else none := by
  by_cases hc : c
  · simp only [hc, if_true, decide_true, Option.map_some, h hc]
  · simp only [hc, if_false, decide_false, Bool.false_eq_true, Option.map_none]

/-- The activation is that of the coherent access function. -/
theorem Access.cpuLine_eq {x : Access} (hmode : x.mode = .read ∨ x.mode = .write) (data : Option ℕ) :
    x.cpuLine pl io self = (do
      let v ← cpuVisit pl io self data x
      return x.after v) := by
  obtain ⟨mode, size, addr, initiatorId, handle⟩ := x
  unfold cpuLine accessCpuLine cpuVisit cpuPiece Access.after
  simp only [bind_assoc, pure_bind]
  refine bind_congr fun found => ?_
  obtain ⟨isHit, p⟩ := found
  refine bind_congr fun _ => bind_congr fun _ => bind_congr fun _ => ?_
  rcases hmode with hmode | hmode
  · obtain rfl := hmode
    dsimp only
    rw [runIf_false (by decide), pure_bind]
    simp only [bind_assoc, pure_bind]
    refine bind_congr fun _ => bind_congr fun _ => bind_congr fun _ => bind_congr fun _ => bind_congr fun _ => ?_
    exact congrArg pure (Access.map_rest _ _ fun h => (if_pos h).symm)
  · obtain rfl := hmode
    dsimp only
    rw [runIf_false (by decide), pure_bind]
    simp only [bind_assoc, pure_bind]
    refine bind_congr fun _ => bind_congr fun _ => bind_congr fun _ => bind_congr fun _ => bind_congr fun _ => ?_
    exact congrArg pure (Access.map_rest _ _ fun h => (if_pos h).symm)

/-- The activation is that of the access function without coherence. -/
theorem Access.nonCoherentLine_eq {x : Access} (hmode : x.mode = .read ∨ x.mode = .write)
    (hcfg : (pl.cfg self).inclusionOfHigher ≠ .exclusive) (data : Option ℕ) :
    x.nonCoherentLine pl dio self = (do
      let v ← nonCoherentVisit pl dio self data x
      return x.after v) := by
  have hinvalidate : x.mode ≠ .invalidate := by
    rcases hmode with h | h <;> rw [h] <;> decide
  have hreadBack : x.mode ≠ .readBack := by
    rcases hmode with h | h <;> rw [h] <;> decide
  unfold nonCoherentLine accessNonCoherentLine nonCoherentVisit nonCoherentPiece Access.after
  simp only [bind_assoc, pure_bind]
  refine bind_congr fun found => ?_
  obtain ⟨isHit, p⟩ := found
  refine bind_congr fun _ => bind_congr fun _ => bind_congr fun _ => ?_
  dsimp only
  unfold nonCoherentAt
  rw [if_neg hinvalidate, if_neg hreadBack, if_neg fun h => hcfg h.2.1]
  unfold nonCoherentAllocating
  simp only [bind_assoc, pure_bind]
  refine bind_congr fun _ => bind_congr fun _ => bind_congr fun _ => bind_congr fun _ => bind_congr fun line => ?_
  refine bind_congr fun _ => bind_congr fun _ => ?_
  exact congrArg pure (Access.map_rest _ _ fun _ => rfl)

end Activations

/-! ## Programs that return -/

section

variable {ι α β : Type}

/-- The program returns, from every state. -/
def Completes (x : CacheM ι α) : Prop := ∀ s, wp x (fun _ _ => True) (fun _ _ => False) s

theorem Completes.bind {x : CacheM ι α} {f : α → CacheM ι β} (hx : Completes x) (hf : ∀ a, Completes (f a)) :
    Completes (x >>= f) :=
  fun s => (hx s).bind fun a s' _ => hf a s'

theorem Completes.ite {c : Prop} [Decidable c] {x y : CacheM ι α} (hx : c → Completes x) (hy : ¬ c → Completes y) :
    Completes (if c then x else y) := by
  split
  · exact hx ‹_›
  · exact hy ‹_›

theorem Completes.modify (f : State ι → State ι) : Completes (modify f : CacheM ι Unit) := fun _ => trivial

theorem Completes.runIf {c : Prop} [Decidable c] {x : CacheM ι Unit} (hx : c → Completes x) :
    Completes (runIf c x) :=
  Completes.ite hx fun _ _ => trivial

/-- A completing program meets every specification whose postcondition holds throughout. -/
theorem Completes.wp {x : CacheM ι α} (hx : Completes x) {Q : α → State ι → Prop} {E : Stop → State ι → Prop}
    {s : State ι} (hQ : ∀ a t, Q a t) : Lib.wp x Q E s :=
  (hx s).imp (fun a t _ => hQ a t) fun _ _ h => h.elim

/-- The transactions that a read or a write of the CPU sends return. -/
structure Ports.Return (io : Ports ι) : Prop where
  socketOut0 : ∀ t, Completes (io.socketOut0 t)
  forwardEvict : ∀ addr, Completes (io.forwardEvict addr)

/-- The transfers that a read or a write without coherence makes return. -/
structure DataPorts.Return (io : DataPorts ι) : Prop where
  forwardReadData : ∀ addr size, Completes (io.forwardReadData addr size)
  forwardWriteData : ∀ addr size, Completes (io.forwardWriteData addr size)
  forwardEvict : ∀ addr size, Completes (io.forwardEvict addr size)
  backInvalidate : ∀ addr ids, Completes (io.backInvalidate addr ids)

end

section Serves

variable {ι : Type} [DecidableEq ι] {pl : Platform ι} {io : Ports ι} {dio : DataPorts ι} {r : ι} {p : LineRef}
  {x : Access} {isHit : Bool}

omit [DecidableEq ι] in
theorem completes_getLine : Completes (getLine r p : CacheM ι CacheLine) := fun _ => trivial

theorem completes_setState (st : CoherenceState) : Completes (setState r p st) := .modify _

theorem completes_sharersModify (a : ℕ) (f : Finset ℕ → Finset ℕ) : Completes (sharersModify r a f) := .modify _

omit [DecidableEq ι] in
/-- A transaction that goes to the lower caches completes. -/
theorem completes_send (hio : io.Return) {c : CoherenceCommand} (hc : c.toHigher = false)
    (hlow : ¬ (c = .invalidate ∨ c = .readBack)) (addr : ℕ) (ids : Finset ℕ) :
    Completes (sendCoherenceTransaction pl io r c addr ids) := by
  unfold sendCoherenceTransaction
  rw [hc, if_neg (by decide), if_neg hlow]
  exact hio.socketOut0 _

/-- The read or write of the CPU in a line completes. -/
theorem completes_cpuAllocating (hio : io.Return) (hmode : x.mode = .read ∨ x.mode = .write) (addr : ℕ) :
    Completes (cpuAllocating pl io r x.mode isHit p addr) := by
  rcases hmode with h | h
  · rw [h]
    exact .runIf fun _ => (completes_send hio rfl (by decide) _ _).bind fun _ => completes_setState _
  · rw [h]
    refine completes_getLine.bind fun line => Completes.bind ?_ fun _ => completes_getLine.bind fun _ => .modify _
    exact .runIf fun _ => (completes_send hio rfl (by decide) _ _).bind fun _ => completes_setState _

/-- The replacement before an allocation completes. -/
theorem completes_nonCoherentReplace (hio : dio.Return) : Completes (nonCoherentReplace pl dio r isHit p) := by
  unfold nonCoherentReplace
  refine completes_getLine.bind fun line => Completes.bind ?_ fun _ => completes_getLine.bind fun line =>
    Completes.bind ?_ fun _ => ?_
  · exact .runIf fun _ => (hio.forwardWriteData _ _).bind fun _ => completes_setState _
  · exact .runIf fun _ => hio.forwardEvict _ _
  · refine .runIf fun _ => completes_getLine.bind fun line => Completes.bind (fun _ => trivial) fun ids => ?_
    refine .runIf fun _ => (hio.backInvalidate _ _).bind fun _ => ?_
    exact completes_getLine.bind fun _ => completes_sharersModify _ _

/-- The read or write of a line of a cache that does not exclude the lines of the upper ones. -/
theorem completes_nonCoherentServe (hio : dio.Return) (hcfg : (pl.cfg r).inclusionOfHigher ≠ .exclusive)
    (hmode : x.mode = .read ∨ x.mode = .write) (addr accessSize initiatorId : ℕ) :
    Completes (nonCoherentServe pl dio r x.mode isHit p addr accessSize initiatorId) := by
  rcases hmode with h | h
  · rw [h]
    have hcheck : Completes (check pl ((pl.cfg r).inclusionOfHigher ≠ .exclusive ∨ isHit = true)) :=
      fun s => wp_check (.inl (.inl hcfg)) trivial
    refine hcheck.bind fun _ => completes_getLine.bind fun line => (completes_sharersModify _ _).bind fun _ => ?_
    refine .ite (fun _ => ?_) fun _ => .runIf fun _ => completes_setState _
    exact (hio.forwardReadData _ _).bind fun _ => completes_setState _
  · rw [h]
    refine completes_getLine.bind fun line => (completes_sharersModify _ _).bind fun _ => Completes.bind ?_ fun _ =>
      completes_getLine.bind fun line => .runIf fun _ => hio.forwardWriteData _ _
    refine completes_getLine.bind fun line => .ite (fun hx => absurd hx.1 hcfg) fun _ => ?_
    refine .ite (fun _ => hio.forwardWriteData _ _) fun _ => Completes.bind ?_ fun _ => completes_setState _
    exact .runIf fun _ => hio.forwardReadData _ _

end Serves

/-! ## The piece of an activation -/

/-- The piece of an activation whose line pointer refers to a line with the address `base`, and
`alignment`. -/
def pieceAt (g : Geometry) (data : Option ℕ) (x : Access) (base : ℕ) : Visit × Bool :=
  let used := sub64 x.addr base
  let alignment := g.cacheLineSize < add64 used x.size
  (⟨base, x.addr, if alignment then sub64 g.cacheLineSize used else x.size, data⟩, decide alignment)

/-- An access of bytes of the address space. -/
structure Access.InSpace (x : Access) : Prop where
  size_pos : 1 ≤ x.size
  size_lt : x.size < 2 ^ 64
  end_le : x.addr + x.size ≤ 2 ^ 64

/-- An access that begins in the first line does not reach the end of the address space. -/
def Access.EndsBefore (g : Geometry) (x : Access) : Prop :=
  x.addr < g.cacheLineSize → x.addr + x.size < 2 ^ 64

instance (g : Geometry) (x : Access) : Decidable (x.EndsBefore g) := inferInstanceAs (Decidable (_ → _))

section Arithmetic

variable {g : Geometry} {x : Access} {k : ℕ}

theorem offset_of_two_pow (hL : g.cacheLineSize = 2 ^ k) (addr : ℕ) : g.offset addr = addr % g.cacheLineSize := by
  rw [Geometry.offset_eq, Geometry.offsetBits, hL, log2_two_pow]

/-- An activation that works on the line of its address takes the first piece, and goes on if there is
more. -/
theorem pieceAt_lineBase (hL : g.cacheLineSize = 2 ^ k) (hx : x.InSpace) (hend : x.EndsBefore g) (data : Option ℕ) :
    pieceAt g data x (g.lineBase x.addr) =
      (⟨g.lineBase x.addr, x.addr, x.piece g, data⟩, decide (x.piece g < x.size)) := by
  obtain ⟨hpos, hsize, hle⟩ := hx
  have hoff := offset_of_two_pow hL x.addr
  have hLpos : 0 < g.cacheLineSize := hL ▸ Nat.two_pow_pos k
  have hlt := Nat.mod_lt x.addr hLpos
  have hmod := Nat.mod_le x.addr g.cacheLineSize
  unfold Access.EndsBefore at hend
  have hsame : x.addr < g.cacheLineSize → x.addr % g.cacheLineSize = x.addr := Nat.mod_eq_of_lt
  unfold pieceAt Geometry.lineBase Access.piece
  rw [hoff]
  generalize x.addr % g.cacheLineSize = off at *
  have hused : sub64 x.addr (x.addr - off) = off := by
    unfold sub64
    omega
  have hadd : add64 off x.size = off + x.size := by
    unfold add64
    by_cases hfirst : x.addr < g.cacheLineSize
    · have := hend hfirst
      have := hsame hfirst
      omega
    · omega
  dsimp only
  rw [hused, hadd]
  by_cases hmore : g.cacheLineSize < off + x.size
  · have hsub : sub64 g.cacheLineSize off = g.cacheLineSize - off := by
      unfold sub64
      omega
    rw [if_pos hmore, hsub, Nat.min_eq_right (by omega)]
    simp only [Prod.mk.injEq, true_and, decide_eq_decide]
    omega
  · rw [if_neg hmore, Nat.min_eq_left (by omega)]
    simp only [Prod.mk.injEq, true_and, decide_eq_decide]
    omega

/-- An access from the first line up to the end of the address space is taken for one piece. -/
theorem lt_end_of_not_endsBefore (hL : g.cacheLineSize = 2 ^ k) (hk : k < 64) (hx : x.InSpace)
    (hend : ¬ x.EndsBefore g) (data : Option ℕ) :
    g.lineBase x.addr + g.cacheLineSize < x.addr + (pieceAt g data x (g.lineBase x.addr)).1.accessSize := by
  obtain ⟨hpos, hsize, hle⟩ := hx
  have hL64 : g.cacheLineSize < 2 ^ 64 := hL ▸ Nat.pow_lt_pow_right (by decide) hk
  have hoff := offset_of_two_pow hL x.addr
  unfold Access.EndsBefore at hend
  have hfirst : x.addr < g.cacheLineSize := by omega
  rw [Nat.mod_eq_of_lt hfirst] at hoff
  unfold pieceAt Geometry.lineBase
  rw [hoff, Nat.sub_self]
  have hused : sub64 x.addr 0 = x.addr := by
    unfold sub64
    omega
  have hadd : add64 x.addr x.size = 0 := by
    unfold add64
    omega
  dsimp only
  rw [hused, hadd, if_neg (by omega)]
  omega

end Arithmetic

/-! ## What an activation finds -/

section Finds

variable {ι : Type} [DecidableEq ι] (pl : Platform ι) (r : ι)

omit [DecidableEq ι] in
/-- The lookup is defined, and what it hits is the line of the address. -/
def FindsOwnLine (s : State ι) (x : Access) : Prop :=
  let g := (pl.cfg r).geometry
  let found := (s.cache r).find g x.addr
  ((s.cache r).sets (g.index x.addr)).policy ≠ .fifo ∧
    (found.1 = true → ((s.cache r).line found.2).address = g.lineBase x.addr)

omit [DecidableEq ι] in
/-- A write-through L1 cache above an exclusive cache has a shared victim, for which the coherent access
function asserts that there is none. -/
def MeetsSharedVictim (s : State ι) (x : Access) : Prop :=
  let cfg := pl.cfg r
  let found := (s.cache r).find cfg.geometry x.addr
  pl.checks = true ∧ found.1 = false ∧ ((s.cache r).line found.2).state = .shared ∧
    cfg.writePolicy = .wThrough ∧ cfg.inclusionOfLower = .exclusive

variable {pl r} {s : State ι} {x : Access} {p : LineRef} {io : Ports ι} {dio : DataPorts ι} {data : Option ℕ}

/-- What an activation that meets the condition, or one that does not, returns of its piece. -/
def PieceFor (g : Geometry) (meets : State ι → Access → Prop) (s : State ι) (data : Option ℕ) (x : Access)
    (v : Visit × Bool) : Prop :=
  ∃ base, v = pieceAt g data x base ∧ (meets s x ↔ base = g.lineBase x.addr)

theorem lookup_fifo {addr : ℕ} (h : ((s.cache r).sets ((pl.cfg r).geometry.index addr)).policy = .fifo) :
    lookup pl r addr s = .error .undefined s := by
  have hnone : ((s.cache r).sets ((pl.cfg r).geometry.index addr)).accessSet
      ((pl.cfg r).geometry.tag addr % wordSize) = none := if_pos h
  unfold lookup
  rw [bind_of_ok (show (get : CacheM ι (State ι)) s = .ok s s from rfl), hnone]
  rfl

/-- The lookup of an activation. On a hit the line pointer refers to a line with a certain address, on a
miss to the victim. -/
theorem wp_lookup_found {Q : Bool × LineRef → State ι → Prop} {E : Stop → State ι → Prop}
    (hfifo : ¬ FindsOwnLine pl r s x → ∀ t, E .undefined t)
    (hQ : ∀ t, ((s.cache r).sets ((pl.cfg r).geometry.index x.addr)).policy ≠ .fifo →
      (∀ q, (t.cache r).line q = (s.cache r).line q) → Q ((s.cache r).find (pl.cfg r).geometry x.addr) t) :
    wp (lookup pl r x.addr) Q E s := by
  by_cases hp : ((s.cache r).sets ((pl.cfg r).geometry.index x.addr)).policy = .fifo
  · unfold wp
    rw [lookup_fifo hp]
    exact hfifo (fun h => h.1 hp) s
  · refine wp_lookup_find (fun h => absurd h hp) fun f hf _ => hQ _ hp fun q => ?_
    rw [State.modifyCache_cache]
    exact hf.line q

/-- The allocation of a miss in a write-allocate cache gives the line of the pointer the base of the
address. -/
theorem wp_allocate_base {E : Stop → State ι → Prop} {Q : Unit → State ι → Prop} {base addr handle : ℕ}
    (halloc : (pl.cfg r).allocPolicy = .wAllocate)
    (hQ : ∀ t, ((t.cache r).line p).address = base → Q () t) :
    wp (allocate pl r false p base addr handle) Q E s := by
  refine wp_runIf_pos ⟨rfl, halloc⟩ (hQ _ ?_)
  rw [State.modifyCache_cache, Cache.modifyLine_line, if_pos rfl]
  rfl

omit [DecidableEq ι] in
/-- The line of an address, as the assertions of the access functions require it of a hit. -/
theorem sub_lineBase_lt {addr base : ℕ} (h : base = (pl.cfg r).geometry.lineBase addr) :
    base ≤ addr ∧ addr - base < (pl.cfg r).geometry.cacheLineSize := by
  rw [h]
  exact ⟨Geometry.lineBase_le addr, (pl.cfg r).accepted.sub_lineBase_lt addr⟩

omit [DecidableEq ι] in
/-- On a hit the condition is that the line found is the one of the address. -/
theorem findsOwnLine_hit (hpol : ((s.cache r).sets ((pl.cfg r).geometry.index x.addr)).policy ≠ .fifo)
    (hfound : (s.cache r).find (pl.cfg r).geometry x.addr = (true, p)) :
    FindsOwnLine pl r s x ↔ ((s.cache r).line p).address = (pl.cfg r).geometry.lineBase x.addr := by
  unfold FindsOwnLine
  dsimp only
  rw [hfound]
  exact ⟨fun h => h.2 rfl, fun h => ⟨hpol, fun _ => h⟩⟩

omit [DecidableEq ι] in
/-- A miss meets the condition. -/
theorem findsOwnLine_miss (hpol : ((s.cache r).sets ((pl.cfg r).geometry.index x.addr)).policy ≠ .fifo)
    (hfound : (s.cache r).find (pl.cfg r).geometry x.addr = (false, p)) : FindsOwnLine pl r s x := by
  unfold FindsOwnLine
  dsimp only
  rw [hfound]
  exact ⟨hpol, fun h => by cases h⟩

/-- After the allocation an activation takes the piece of the address in the line. -/
theorem nonCoherentPiece_spec {t : State ι} (hio : dio.Return) (hcfg : (pl.cfg r).inclusionOfHigher ≠ .exclusive)
    (hmode : x.mode = .read ∨ x.mode = .write) {k : ℕ} (hL : (pl.cfg r).geometry.cacheLineSize = 2 ^ k)
    (hx : x.InSpace) {isHit : Bool} {base : ℕ} (hbase : ((t.cache r).line p).address = base)
    (hmeets : FindsOwnLine pl r s x ↔ base = (pl.cfg r).geometry.lineBase x.addr) :
    wp (nonCoherentPiece pl dio r data x isHit p)
      (fun v _ => PieceFor (pl.cfg r).geometry (FindsOwnLine pl r) s data x v)
      (fun _ _ => ¬ (x.EndsBefore (pl.cfg r).geometry ∧ FindsOwnLine pl r s x)) t := by
  refine .step (wp_getLine_any (.step (wp_check ?_ (.step ((completes_nonCoherentServe hio hcfg hmode _ _ _).wp
    fun _ t' => ?_)))))
  · by_cases hgood : x.EndsBefore (pl.cfg r).geometry ∧ FindsOwnLine pl r s x
    · have hpiece := pieceAt_lineBase hL hx hgood.1 data
      left
      rw [hbase, hmeets.1 hgood.2]
      exact (congrArg (fun v => v.1.accessSize) hpiece).le.trans
        ((Nat.min_le_right _ _).trans (Nat.sub_le _ _))
    · exact .inr fun _ => hgood
  · refine ⟨base, ?_, hmeets⟩
    rw [hbase]
    rfl

/-- One activation of `accessNonCoherentCache` takes the first piece, exactly when it finds its own line.
-/
theorem nonCoherentVisit_spec (hio : dio.Return) (hcfg : (pl.cfg r).inclusionOfHigher ≠ .exclusive)
    (halloc : (pl.cfg r).allocPolicy = .wAllocate) (hmode : x.mode = .read ∨ x.mode = .write) {k : ℕ}
    (hL : (pl.cfg r).geometry.cacheLineSize = 2 ^ k) (hx : x.InSpace) :
    wp (nonCoherentVisit pl dio r data x)
      (fun v _ => PieceFor (pl.cfg r).geometry (FindsOwnLine pl r) s data x v)
      (fun _ _ => ¬ (x.EndsBefore (pl.cfg r).geometry ∧ FindsOwnLine pl r s x)) s := by
  refine .step (wp_lookup_found (fun h _ h' => h h'.2) fun t₁ hpol ht₁ => ?_)
  rcases hfound : (s.cache r).find (pl.cfg r).geometry x.addr with ⟨isHit, p⟩
  refine .step (wp_getLine_any (.step (wp_check ?_ (.step (wp_notifyVictim_beside fun t₂ hc₂ _ => ?_)))))
  · cases isHit with
    | false => exact .inl (.inl rfl)
    | true =>
      have hvalid := @Cache.find_valid (pl.cfg r).geometry (s.cache r) x.addr (by rw [hfound])
      rw [hfound] at hvalid
      rw [ht₁]
      exact .inl (.inr hvalid)
  have hline₂ : (t₂.cache r).line p = (s.cache r).line p := by rw [hc₂, ht₁]
  refine .step (wp_getLine_any ?_)
  cases isHit with
  | false =>
    refine .step (wp_check (.inl (.inl rfl)) (.step ((completes_nonCoherentReplace hio).wp fun _ t₃ => ?_)))
    refine .step (wp_allocate_base halloc fun t₄ ht₄ => ?_)
    exact nonCoherentPiece_spec hio hcfg hmode hL hx ht₄ (iff_of_true (findsOwnLine_miss hpol hfound) rfl)
  | true =>
    have hmeets := findsOwnLine_hit hpol hfound
    refine .step (wp_check ?_ (.bind nonCoherentReplace_hit fun _ t₃ ht₃ => .step (wp_runIf_neg (by simp) ?_)))
    · by_cases hown : FindsOwnLine pl r s x
      · rw [hline₂]
        exact .inl (.inr (sub_lineBase_lt (hmeets.1 hown)))
      · exact .inr fun _ h => hown h.2
    · rw [ht₃]
      exact nonCoherentPiece_spec hio hcfg hmode hL hx (congrArg _ hline₂) hmeets

/-- What the coherent access function needs of the state it finds. -/
def CpuFinds (pl : Platform ι) (r : ι) (s : State ι) (x : Access) : Prop :=
  FindsOwnLine pl r s x ∧ ¬ MeetsSharedVictim pl r s x

/-- Making room for a line stops at the assertion about shared victims, or nowhere. -/
theorem cpuWriteBack_miss (hio : io.Return) (p : LineRef) :
    let refused := pl.checks = true ∧ ((s.cache r).line p).state = .shared ∧ (pl.cfg r).writePolicy = .wThrough ∧
      (pl.cfg r).inclusionOfLower = .exclusive
    wp (cpuWriteBack pl io r false p) (fun _ _ => ¬ refused) (fun _ _ => refused) s := by
  intro refused
  have hvacate (c : CoherenceCommand) (hc : c.toHigher = false) (hlow : ¬ (c = .invalidate ∨ c = .readBack))
      (a : ℕ) (t : State ι) :
      wp (do
        sendCoherenceTransaction pl io r c a ∅
        setState r p .invalid) (fun _ t' => ((t'.cache r).line p).state = .invalid) (fun _ _ => refused) t := by
    refine .step ((completes_send hio hc hlow a ∅).wp fun _ t' => ?_)
    change (((t'.modifyCache r _).cache r).line p).state = _
    rw [State.modifyCache_cache, Cache.modifyLine_line, if_pos rfl]
    rfl
  refine .step (wp_getLine_any ?_)
  by_cases hback : ((s.cache r).line p).state ≠ .invalid ∧ (pl.cfg r).writePolicy = .wBack
  · have hnot : ¬ refused := fun h => absurd (hback.2.symm.trans h.2.2.1) (by decide)
    refine .bind (R := fun _ t' => ((t'.cache r).line p).state = .invalid) (wp_runIf_pos ⟨rfl, hback⟩ ?_)
      fun _ t ht => .step (wp_getLine_any (wp_runIf_neg (fun h => ?_) hnot))
    · cases hst : ((s.cache r).line p).state with
      | modified => exact hvacate .putM rfl (by decide) _ s
      | shared => exact hvacate .putS rfl (by decide) _ s
      | invalid => exact absurd hst hback.1
    · rw [ht] at h
      cases h.2.1
  · refine .step (wp_runIf_neg (fun h => hback h.2) (.step (wp_getLine_any (wp_runIf (fun h => ?_) fun h => ?_))))
    · have hthrough : (pl.cfg r).writePolicy = .wThrough := by
        cases hw : (pl.cfg r).writePolicy with
        | wThrough => rfl
        | wBack =>
          rw [h.2.1] at hback
          exact absurd ⟨by decide, hw⟩ hback
      by_cases hchecks : pl.checks = true
      · refine .step ?_
        unfold wp check
        rw [if_pos ⟨hchecks, not_false⟩]
        exact ⟨hchecks, h.2.1, hthrough, h.2.2⟩
      · refine .step (wp_check (.inr fun hc => absurd hc hchecks) ?_)
        exact (hio.forwardEvict _).wp fun _ _ hr => hchecks hr.1
    · exact fun hr => h ⟨rfl, hr.2.1, hr.2.2.2⟩

/-- A hit makes no room. -/
theorem cpuWriteBack_hit {E : Stop → State ι → Prop} {Q : Unit → State ι → Prop} (hQ : Q () s) :
    wp (cpuWriteBack pl io r true p) Q E s :=
  .step (wp_getLine_any (.step (wp_runIf_neg (by simp) (.step (wp_getLine_any (wp_runIf_neg (by simp) hQ))))))

/-- After the allocation a CPU activation takes the piece of the address in the line. -/
theorem cpuPiece_spec {t : State ι} (hio : io.Return) (hmode : x.mode = .read ∨ x.mode = .write) {isHit : Bool}
    {base : ℕ} (hbase : ((t.cache r).line p).address = base)
    (hmeets : CpuFinds pl r s x ↔ base = (pl.cfg r).geometry.lineBase x.addr) :
    wp (cpuPiece pl io r data x isHit p) (fun v _ => PieceFor (pl.cfg r).geometry (CpuFinds pl r) s data x v)
      (fun _ _ => ¬ (x.EndsBefore (pl.cfg r).geometry ∧ CpuFinds pl r s x)) t := by
  refine .step (wp_getLine_any (.step (wp_check ?_ (.step ((completes_cpuAllocating hio hmode _).wp fun _ t' => ?_)))))
  · rw [hbase]
    by_cases hgood : CpuFinds pl r s x
    · exact .inl (hmeets.1 hgood).symm
    · exact .inr fun _ h => hgood h.2
  · refine ⟨base, ?_, hmeets⟩
    rw [hbase]
    rfl

/-- One activation of `accessCpuCache` takes the first piece, exactly when it finds its own line. -/
theorem cpuVisit_spec (hio : io.Return) (halloc : (pl.cfg r).allocPolicy = .wAllocate)
    (hmode : x.mode = .read ∨ x.mode = .write) :
    wp (cpuVisit pl io r data x) (fun v _ => PieceFor (pl.cfg r).geometry (CpuFinds pl r) s data x v)
      (fun _ _ => ¬ (x.EndsBefore (pl.cfg r).geometry ∧ CpuFinds pl r s x)) s := by
  refine .step (wp_lookup_found (fun h _ h' => h h'.2.1) fun t₁ hpol ht₁ => ?_)
  rcases hfound : (s.cache r).find (pl.cfg r).geometry x.addr with ⟨isHit, p⟩
  refine .step (wp_notifyVictim_beside fun t₂ hc₂ _ => .step (wp_getLine_any ?_))
  have hline₂ : (t₂.cache r).line p = (s.cache r).line p := by rw [hc₂, ht₁]
  have hvictim : MeetsSharedVictim pl r s x ↔ isHit = false ∧ (pl.checks = true ∧ ((s.cache r).line p).state = .shared ∧
      (pl.cfg r).writePolicy = .wThrough ∧ (pl.cfg r).inclusionOfLower = .exclusive) := by
    unfold MeetsSharedVictim
    dsimp only
    rw [hfound]
    exact and_left_comm
  cases isHit with
  | false =>
    have hown := findsOwnLine_miss hpol hfound
    refine .step (wp_check (.inl (.inl rfl)) (.step ?_))
    refine (cpuWriteBack_miss hio p).imp (fun _ t₃ hnot => ?_) fun _ _ hrefused h => ?_
    · refine .step (wp_allocate_base halloc fun t₄ ht₄ => cpuPiece_spec hio hmode ht₄ (iff_of_true ⟨hown, ?_⟩ rfl))
      rw [hvictim, ← hline₂]
      exact fun h => hnot h.2
    · rw [hline₂] at hrefused
      exact h.2.2 (hvictim.2 ⟨rfl, hrefused⟩)
  | true =>
    have hmeets : CpuFinds pl r s x ↔ ((s.cache r).line p).address = (pl.cfg r).geometry.lineBase x.addr := by
      refine Iff.trans (and_iff_left fun h => ?_) (findsOwnLine_hit hpol hfound)
      cases (hvictim.1 h).1
    refine .step (wp_check ?_ (.step (cpuWriteBack_hit (.step (wp_runIf_neg (by simp) ?_)))))
    · by_cases hown : CpuFinds pl r s x
      · rw [hline₂]
        exact .inl (.inr (sub_lineBase_lt (hmeets.1 hown)))
      · exact .inr fun _ h => hown h.2
    · exact cpuPiece_spec hio hmode (congrArg _ hline₂) hmeets

end Finds

/-! ## The pieces of an access -/

/-- The pieces partition the bytes of the access, each inside one line, and the data pointer has moved on
by the bytes before the piece. -/
structure Splits (g : Geometry) (data : Option ℕ) (x : Access) (vs : List Visit) : Prop where
  covers : ∀ b, (∃ v ∈ vs, v.addr ≤ b ∧ b < v.addr + v.accessSize) ↔ x.addr ≤ b ∧ b < x.addr + x.size
  increasing : vs.Pairwise fun v w => v.addr + v.accessSize ≤ w.addr
  nonempty : ∀ v ∈ vs, 0 < v.accessSize
  within : ∀ v ∈ vs, v.line = g.lineBase v.addr ∧ v.addr + v.accessSize ≤ v.line + g.cacheLineSize
  /-- Each line is visited once, in order. -/
  once : vs.Pairwise fun v w => v.line < w.line
  data : ∀ v ∈ vs, v.data = data.map (· + (v.addr - x.addr))

/-- The recursion `call` ends, after at most as many activations as the access has bytes, and visits the
pieces of the access. -/
def SplitsLines {ι : Type} (call : ℕ → Access → CacheM ι Unit)
    (visit : Option ℕ → Access → CacheM ι (Visit × Bool)) (g : Geometry) (s : State ι) (data : Option ℕ)
    (x : Access) : Prop :=
  ∃ vs t, (∀ fuel, x.size ≤ fuel → call fuel x s = .ok ⟨⟩ t ∧ visitLines visit fuel data x s = .ok vs t) ∧
    Splits g data x vs

section Pieces

variable {g : Geometry} {x : Access} {k : ℕ} {data : Option ℕ} {vs : List Visit}

/-- The first piece of an access. -/
def Access.firstVisit (g : Geometry) (data : Option ℕ) (x : Access) : Visit :=
  ⟨g.lineBase x.addr, x.addr, x.piece g, data⟩

/-- The first piece is not empty, stays in its line, and ends the line when it does not end the access.
-/
theorem piece_spec (hL : g.cacheLineSize = 2 ^ k) (hx : x.InSpace) :
    0 < x.piece g ∧ x.piece g ≤ x.size ∧ x.addr + x.piece g ≤ g.lineBase x.addr + g.cacheLineSize ∧
      (x.piece g < x.size → x.addr + x.piece g = g.lineBase x.addr + g.cacheLineSize) := by
  have hoff := offset_of_two_pow hL x.addr
  have hlt := Nat.mod_lt x.addr (hL ▸ Nat.two_pow_pos k : 0 < g.cacheLineSize)
  have hmod := Nat.mod_le x.addr g.cacheLineSize
  have hpos := hx.size_pos
  unfold Access.piece Geometry.lineBase
  rw [hoff]
  omega

/-- What is left after a piece that does not end the access starts the next line. -/
theorem rest_spec (hL : g.cacheLineSize = 2 ^ k) (hx : x.InSpace) (hmore : x.piece g < x.size) :
    (x.rest (x.piece g)).addr = g.lineBase x.addr + g.cacheLineSize ∧
      (x.rest (x.piece g)).size = x.size - x.piece g ∧ (x.rest (x.piece g)).InSpace ∧
      (x.rest (x.piece g)).EndsBefore g := by
  obtain ⟨hpos, hle, -, hnext⟩ := piece_spec hL hx
  obtain ⟨hsize, hlt, hend⟩ := hx
  have haddr : (x.rest (x.piece g)).addr = g.lineBase x.addr + g.cacheLineSize := by
    rw [← hnext hmore]
    unfold Access.rest add64
    dsimp only
    omega
  have hrest : (x.rest (x.piece g)).size = x.size - x.piece g := by
    unfold Access.rest sub64
    dsimp only
    omega
  have hstart := hnext hmore
  refine ⟨haddr, hrest, ⟨by omega, by omega, by omega⟩, fun hfirst => ?_⟩
  omega

/-- An access that ends in its first line splits into one piece. -/
theorem splits_last (hL : g.cacheLineSize = 2 ^ k) (hx : x.InSpace) (hlast : ¬ x.piece g < x.size) :
    Splits g data x [x.firstVisit g data] := by
  obtain ⟨hpos, hle, hline, -⟩ := piece_spec hL hx
  have hall : x.piece g = x.size := by omega
  refine ⟨fun b => ?_, List.pairwise_singleton _ _, ?_, ?_, List.pairwise_singleton _ _, ?_⟩
  · simp only [List.mem_singleton, exists_eq_left, Access.firstVisit, hall]
  · exact List.forall_mem_singleton.2 hpos
  · exact List.forall_mem_singleton.2 ⟨rfl, hline⟩
  · simp [Access.firstVisit]

/-- An access splits into its first piece and those of the rest. -/
theorem Splits.cons (hL : g.cacheLineSize = 2 ^ k) (hx : x.InSpace) (hmore : x.piece g < x.size)
    (h : Splits g (data.map (· + x.piece g)) (x.rest (x.piece g)) vs) :
    Splits g data x (x.firstVisit g data :: vs) := by
  obtain ⟨hpos, hle, hline, hnext⟩ := piece_spec hL hx
  obtain ⟨haddr, hsize, hrest, -⟩ := rest_spec hL hx hmore
  have hstart := hnext hmore
  have hlow : ∀ v ∈ vs, x.addr + x.piece g ≤ v.addr := fun v hv => by
    have := ((h.covers v.addr).1 ⟨v, hv, le_rfl, Nat.lt_add_of_pos_right (h.nonempty v hv)⟩).1
    omega
  refine ⟨fun b => ?_, List.pairwise_cons.2 ⟨hlow, h.increasing⟩, ?_, ?_, List.pairwise_cons.2 ⟨?_, h.once⟩, ?_⟩
  · rw [List.exists_mem_cons_iff, h.covers b]
    unfold Access.firstVisit
    dsimp only
    omega
  · exact List.forall_mem_cons.2 ⟨hpos, h.nonempty⟩
  · exact List.forall_mem_cons.2 ⟨⟨rfl, hline⟩, h.within⟩
  · intro v hv
    obtain ⟨hbase, hin⟩ := h.within v hv
    have hlowv := hlow v hv
    have hposv := h.nonempty v hv
    change g.lineBase x.addr < v.line
    omega
  · refine List.forall_mem_cons.2 ⟨?_, fun v hv => ?_⟩
    · simp [Access.firstVisit]
    · rw [h.data v hv, Option.map_map]
      have hlowv := hlow v hv
      congr 1
      funext d
      simp only [Function.comp_apply]
      omega

end Pieces

/-! ## The recursion -/

/-- A recursion that returns has taken a piece, and then those of the rest if it went on. -/
theorem visitLines_ok {ι : Type} {visit : Option ℕ → Access → CacheM ι (Visit × Bool)} {fuel : ℕ}
    {data : Option ℕ} {x : Access} {s t : State ι} {vs : List Visit}
    (h : visitLines visit (fuel + 1) data x s = .ok vs t) :
    ∃ v alignment s', visit data x s = .ok (v, alignment) s' ∧ v ∈ vs ∧
      if alignment = true then ∃ vs', vs = v :: vs' ∧
        visitLines visit fuel (data.map (· + v.accessSize)) (x.rest v.accessSize) s' = .ok vs' t
      else t = s' := by
  unfold visitLines at h
  cases hv : visit data x s with
  | error e s' =>
    rw [bind_of_error hv] at h
    cases h
  | ok v s' =>
    rw [bind_of_ok hv] at h
    obtain ⟨v, alignment⟩ := v
    refine ⟨v, alignment, s', rfl, ?_⟩
    dsimp only at h
    split at h
    · rename_i halign
      rw [if_pos halign]
      cases hrec : visitLines visit fuel (data.map (· + v.accessSize)) (x.rest v.accessSize) s' with
      | error e s'' =>
        rw [bind_of_error hrec] at h
        cases h
      | ok vs' t' =>
        rw [bind_of_ok hrec] at h
        cases h
        exact ⟨List.mem_cons_self, vs', rfl, rfl⟩
    · rename_i halign
      rw [if_neg halign]
      cases h
      exact ⟨List.mem_singleton_self v, rfl⟩

/-- What the recursion rests on: its activation is `body`, and takes the piece of its line if it meets the
condition, and only then. -/
structure Activation {ι : Type} (g : Geometry) (call : ℕ → Access → CacheM ι Unit)
    (visit : Option ℕ → Access → CacheM ι (Visit × Bool)) (body : Access → CacheM ι (Option Access))
    (meets : State ι → Access → Prop) : Prop where
  call_eq : ∀ fuel x, call fuel x = loop body .undefined fuel x
  body_eq : ∀ data x, x.mode = .read ∨ x.mode = .write → body x = (do
    let v ← visit data x
    return x.after v)
  piece : ∀ s data x, x.mode = .read ∨ x.mode = .write → x.InSpace →
    wp (visit data x) (fun v _ => PieceFor g meets s data x v) (fun _ _ => ¬ (x.EndsBefore g ∧ meets s x)) s

namespace Activation

variable {ι : Type} {g : Geometry} {call : ℕ → Access → CacheM ι Unit}
  {visit : Option ℕ → Access → CacheM ι (Visit × Bool)} {body : Access → CacheM ι (Option Access)} {meets : State ι → Access → Prop} {k : ℕ} {s t : State ι}
  {data : Option ℕ} {x : Access}

/-- An activation that meets the condition takes the first piece. -/
theorem visit_of_meets (h : Activation g call visit body meets) (hL : g.cacheLineSize = 2 ^ k)
    (hmode : x.mode = .read ∨ x.mode = .write) (hx : x.InSpace) (hend : x.EndsBefore g) (hmeets : meets s x)
    (data : Option ℕ) : ∃ t, visit data x s = .ok (x.firstVisit g data, decide (x.piece g < x.size)) t := by
  have hwp := h.piece s data x hmode hx
  cases hrun : visit data x s with
  | error e t => exact absurd ⟨hend, hmeets⟩ (hwp.of_error hrun)
  | ok v t =>
    obtain ⟨base, hv, hbase⟩ := hwp.of_ok hrun
    rw [hbase.1 hmeets, pieceAt_lineBase hL hx hend] at hv
    exact ⟨t, by rw [hv]; rfl⟩

/-- An activation of which a piece in the line of its address is known met the condition. -/
theorem meets_of_line (h : Activation g call visit body meets) (hmode : x.mode = .read ∨ x.mode = .write)
    (hx : x.InSpace) {v : Visit × Bool} (hrun : visit data x s = .ok v t)
    (hline : v.1.line = g.lineBase v.1.addr) :
    meets s x ∧ v = pieceAt g data x (g.lineBase x.addr) := by
  obtain ⟨base, rfl, hbase⟩ := (h.piece s data x hmode hx).of_ok hrun
  have hown : base = g.lineBase x.addr := hline
  exact ⟨hbase.2 hown, by rw [hown]⟩

/-- The activation of the access function returns what the one that is followed says. -/
theorem body_of_visit (h : Activation g call visit body meets) (hmode : x.mode = .read ∨ x.mode = .write)
    {v : Visit × Bool} (hrun : visit data x s = .ok v t) : body x s = .ok (x.after v) t := by
  rw [h.body_eq data x hmode]
  exact bind_of_ok hrun

/-- The access function returns in the same state as the recursion that is followed. -/
theorem call_of_visitLines (h : Activation g call visit body meets) {fuel : ℕ}
    (hmode : x.mode = .read ∨ x.mode = .write) {vs : List Visit}
    (hrun : visitLines visit fuel data x s = .ok vs t) : call fuel x s = .ok ⟨⟩ t := by
  rw [h.call_eq]
  induction fuel generalizing s data x vs with
  | zero => cases hrun
  | succ fuel ih =>
    obtain ⟨v, alignment, s', hv, -, hmore⟩ := visitLines_ok hrun
    have hbody := h.body_of_visit hmode hv
    unfold loop
    rw [bind_of_ok hbody]
    unfold Access.after
    dsimp only
    split at hmore
    · rename_i halign
      obtain ⟨vs', -, hrec⟩ := hmore
      rw [if_pos halign]
      exact ih hmode hrec
    · rename_i halign
      rw [if_neg halign, hmore]
      rfl

/-- If every activation meets the condition, the recursion visits the pieces of the access. -/
theorem splitsLines_of_rounds (h : Activation g call visit body meets) (hL : g.cacheLineSize = 2 ^ k) {n : ℕ}
    (hn : x.size ≤ n) (hmode : x.mode = .read ∨ x.mode = .write) (hx : x.InSpace) (hend : x.EndsBefore g)
    (data : Option ℕ) (hmeets : Rounds body meets n s x) :
    SplitsLines call visit g s data x := by
  induction n generalizing s x data with
  | zero =>
    have := hx.size_pos
    omega
  | succ n ih =>
    obtain ⟨t, hrun⟩ := h.visit_of_meets hL hmode hx hend hmeets.1 data
    have hboth {fuel vs t} (hvs : visitLines visit fuel data x s = .ok vs t) :
        call fuel x s = .ok ⟨⟩ t ∧ visitLines visit fuel data x s = .ok vs t := ⟨h.call_of_visitLines hmode hvs, hvs⟩
    by_cases hmore : x.piece g < x.size
    · obtain ⟨-, hsize, hrest, hrestEnd⟩ := rest_spec hL hx hmore
      have hpos := (piece_spec hL hx).1
      have hbody := h.body_of_visit hmode hrun
      have hafter : x.after (x.firstVisit g data, decide (x.piece g < x.size)) = some (x.rest (x.piece g)) :=
        if_pos (decide_eq_true hmore)
      rw [hafter] at hbody
      obtain ⟨vs, t', hvs, hsplits⟩ := ih (x := x.rest (x.piece g)) (s := t) (by omega) hmode hrest
        hrestEnd (data.map (· + x.piece g)) (hmeets.2 _ _ hbody)
      refine ⟨_, t', fun fuel hfuel => hboth ?_, hsplits.cons hL hx hmore⟩
      obtain ⟨fuel, rfl⟩ : ∃ f, fuel = f + 1 := Nat.exists_eq_succ_of_ne_zero (by omega)
      unfold visitLines
      rw [bind_of_ok hrun]
      dsimp only
      rw [if_pos (decide_eq_true hmore)]
      exact bind_of_ok (hvs fuel (by omega)).2
    · refine ⟨_, t, fun fuel hfuel => hboth ?_, splits_last hL hx hmore⟩
      have hpos := hx.size_pos
      obtain ⟨fuel, rfl⟩ : ∃ f, fuel = f + 1 := Nat.exists_eq_succ_of_ne_zero (by omega)
      unfold visitLines
      rw [bind_of_ok hrun]
      dsimp only
      rw [if_neg (by simpa using hmore)]
      rfl

/-- If every visit is in the line of its address, every activation met the condition. -/
theorem rounds_of_visits (h : Activation g call visit body meets) (hL : g.cacheLineSize = 2 ^ k) {fuel : ℕ}
    (hmode : x.mode = .read ∨ x.mode = .write) (hx : x.InSpace) (hend : x.EndsBefore g) {vs : List Visit}
    (hrun : visitLines visit fuel data x s = .ok vs t) (hline : ∀ v ∈ vs, v.line = g.lineBase v.addr) :
    Rounds body meets fuel s x := by
  induction fuel generalizing s data x vs with
  | zero => trivial
  | succ fuel ih =>
    obtain ⟨v, alignment, s', hv, hmem, hmore⟩ := visitLines_ok hrun
    -- The condition of the activation follows from its line.
    obtain ⟨hmeets, hpiece⟩ := h.meets_of_line hmode hx hv (hline v hmem)
    rw [pieceAt_lineBase hL hx hend, Prod.mk.injEq] at hpiece
    obtain ⟨rfl, rfl⟩ := hpiece
    refine ⟨hmeets, fun y s'' hbody => ?_⟩
    rw [h.body_of_visit hmode hv, Access.after] at hbody
    split at hbody
    · rename_i halign
      cases hbody
      rw [if_pos halign] at hmore
      obtain ⟨vs', rfl, hrec⟩ := hmore
      obtain ⟨-, -, hrest, hrestEnd⟩ := rest_spec hL hx (of_decide_eq_true halign)
      exact ih hmode hrest hrestEnd hrec fun w hw => hline w (List.mem_cons_of_mem _ hw)
    · cases hbody

/-- An access that is split into its pieces does not reach from the first line to the end of the
address space. -/
theorem endsBefore_of_splitsLines (h : Activation g call visit body meets) (hL : g.cacheLineSize = 2 ^ k) (hk : k < 64)
    (hmode : x.mode = .read ∨ x.mode = .write) (hx : x.InSpace) (hsplits : SplitsLines call visit g s data x) :
    x.EndsBefore g := by
  by_contra hend
  obtain ⟨vs, t, hrun, hpieces⟩ := hsplits
  obtain ⟨v, alignment, s', hv, hmem, -⟩ := visitLines_ok (hrun (x.size + 1) (Nat.le_succ _)).2
  obtain ⟨hline, hin⟩ := hpieces.within v hmem
  obtain ⟨-, hpiece⟩ := h.meets_of_line hmode hx hv hline
  have hfar := lt_end_of_not_endsBefore hL hk hx hend data
  rw [← hpiece] at hfar
  obtain rfl : v = (pieceAt g data x (g.lineBase x.addr)).1 := congrArg Prod.fst hpiece
  exact absurd hin (Nat.not_le_of_lt hfar)

/-- The recursion splits an access into its pieces exactly when the access does not reach from the first
line to the end of the address space, and every activation meets the condition. -/
theorem splitsLines_iff (h : Activation g call visit body meets) (hL : g.cacheLineSize = 2 ^ k) (hk : k < 64)
    (hmode : x.mode = .read ∨ x.mode = .write) (hx : x.InSpace) :
    SplitsLines call visit g s data x ↔ x.EndsBefore g ∧ Rounds body meets x.size s x := by
  constructor
  · intro hsplits
    have hend := h.endsBefore_of_splitsLines hL hk hmode hx hsplits
    obtain ⟨vs, t, hrun, hpieces⟩ := hsplits
    exact ⟨hend, h.rounds_of_visits hL hmode hx hend (hrun x.size le_rfl).2 fun v hv => (hpieces.within v hv).1⟩
  · exact fun ⟨hend, hmeets⟩ => h.splitsLines_of_rounds hL le_rfl hmode hx hend data hmeets

end Activation

/-! ## Both access functions -/

section

variable {ι : Type} [DecidableEq ι] (pl : Platform ι) (r : ι) {k : ℕ}

theorem activation_cpu {io : Ports ι} (hio : io.Return) (halloc : (pl.cfg r).allocPolicy = .wAllocate) :
    Activation (pl.cfg r).geometry (fun fuel x => x.cpu pl io r fuel) (cpuVisit pl io r)
      (Access.cpuLine pl io r) (CpuFinds pl r) where
  call_eq := Access.cpu_eq_loop pl io r
  body_eq data _ hmode := Access.cpuLine_eq pl io r hmode data
  piece _ _ _ hmode _ := cpuVisit_spec hio halloc hmode

theorem activation_nonCoherent {dio : DataPorts ι} (hio : dio.Return) (halloc : (pl.cfg r).allocPolicy = .wAllocate)
    (hcfg : (pl.cfg r).inclusionOfHigher ≠ .exclusive) (hL : (pl.cfg r).geometry.cacheLineSize = 2 ^ k) :
    Activation (pl.cfg r).geometry (fun fuel x => x.nonCoherent pl dio r fuel) (nonCoherentVisit pl dio r)
      (Access.nonCoherentLine pl dio r) (FindsOwnLine pl r) where
  call_eq := Access.nonCoherent_eq_loop pl dio r
  body_eq data _ hmode := Access.nonCoherentLine_eq pl dio r hmode hcfg data
  piece _ _ _ hmode hx := nonCoherentVisit_spec hio hcfg halloc hmode hL hx

/-- The access functions split an access into the pieces of its lines exactly when it does not reach from
the first line to the end of the address space, and every activation that hits finds the line of its
address, has a lookup that is defined, and, in an L1 cache, meets no victim that it asserts away. -/
theorem accesses_split_iff {io : Ports ι} {dio : DataPorts ι} (hio : io.Return) (hdio : dio.Return)
    (halloc : (pl.cfg r).allocPolicy = .wAllocate) (hk : k < 64)
    (hL : (pl.cfg r).geometry.cacheLineSize = 2 ^ k) (s : State ι) (data : Option ℕ) (x : Access)
    (hmode : x.mode = .read ∨ x.mode = .write) (hx : x.InSpace) :
    (SplitsLines (fun fuel x => x.cpu pl io r fuel) (cpuVisit pl io r) (pl.cfg r).geometry s data x ↔
      x.EndsBefore (pl.cfg r).geometry ∧ Rounds (Access.cpuLine pl io r) (CpuFinds pl r) x.size s x) ∧
    ((pl.cfg r).inclusionOfHigher ≠ .exclusive →
      (SplitsLines (fun fuel x => x.nonCoherent pl dio r fuel) (nonCoherentVisit pl dio r) (pl.cfg r).geometry s
        data x ↔
      x.EndsBefore (pl.cfg r).geometry ∧
        Rounds (Access.nonCoherentLine pl dio r) (FindsOwnLine pl r) x.size s x)) :=
  ⟨(activation_cpu pl r hio halloc).splitsLines_iff hL hk hmode hx,
    fun hcfg => (activation_nonCoherent pl r hdio halloc hcfg hL).splitsLines_iff hL hk hmode hx⟩

end

theorem silentPorts_return {ι : Type} : (silentPorts : Ports ι).Return := ⟨fun _ _ => trivial, fun _ _ => trivial⟩

theorem sinkPorts_return {ι : Type} : (sinkPorts : DataPorts ι).Return :=
  ⟨fun _ _ _ => trivial, fun _ _ _ => trivial, fun _ _ _ => trivial, fun _ _ _ => trivial⟩

instance {ι : Type} (pl : Platform ι) (r : ι) (s : State ι) (x : Access) : Decidable (FindsOwnLine pl r s x) :=
  inferInstanceAs (Decidable (_ ∧ (_ → _)))

/-- A read of the last 8 bytes of a line and the first 8 bytes of the next one, by a cache of one line. -/
theorem accesses_split_twoLines :
    SplitsLines (fun fuel x => x.nonCoherent (.single (oneLine .nine)) sinkPorts () fuel)
      (nonCoherentVisit (.single (oneLine .nine)) sinkPorts ()) (oneLine .nine).geometry
      (.init (.single (oneLine .nine))) (some 4096) { mode := .read, size := 16, addr := 56 } := by
  refine ((accesses_split_iff (.single (oneLine .nine)) () silentPorts_return sinkPorts_return rfl
    (by decide : 6 < 64) rfl _ _ _ (.inl rfl) ⟨by decide, by decide, by decide⟩).2 (by decide)).2 ⟨by decide, ?_⟩
  refine .cons (y := { mode := .read, size := 8, addr := 64 }) (by decide +kernel) (by decide +kernel) ?_
  exact .last (by decide +kernel) (by decide +kernel)

/-- After a read of the line 0, the read of the line at `2 ^ 38`, whose tag is `2 ^ 32`, hits the line 0. -/
theorem not_accesses_split : ¬ ∀ cfg : CacheConfig, cfg.allocPolicy = .wAllocate →
    cfg.inclusionOfHigher ≠ .exclusive → (∃ k < 64, cfg.geometry.cacheLineSize = 2 ^ k) →
    ∀ (fuel : ℕ) (xs : List Access) (data : Option ℕ) (x : Access),
      (∀ y ∈ x :: xs, (y.mode = .read ∨ y.mode = .write) ∧ y.InSpace) →
      SplitsLines (fun fuel x => x.nonCoherent (.single cfg) sinkPorts () fuel)
        (nonCoherentVisit (.single cfg) sinkPorts ()) cfg.geometry
        (endState (xs.forM (Access.nonCoherent (.single cfg) sinkPorts () fuel) (.init (.single cfg)))) data x := by
  intro hclaim
  have hsplits := hclaim (oneLine .nine) rfl (by decide) ⟨6, by decide, rfl⟩ 1
    [{ mode := .read, size := 8, addr := 0 }] none { mode := .read, size := 8, addr := 2 ^ 38 }
    (by
      intro y hy
      rcases List.mem_pair.1 hy with rfl | rfl
      · exact ⟨.inl rfl, by decide, by decide, by decide⟩
      · exact ⟨.inl rfl, by decide, by decide, by decide⟩)
  have hact : Activation _ _ _ _ _ := activation_nonCoherent (.single (oneLine .nine)) () (k := 6) sinkPorts_return
    rfl (by decide) rfl
  have hrounds := ((hact.splitsLines_iff (k := 6) rfl (by decide) (.inl rfl) ⟨by decide, by decide, by decide⟩).1 hsplits).2
  have hfinds := hrounds.1
  revert hfinds
  decide +kernel

end Vpsim.Memory
