import Vpsim.Memory.InstructionCache
import Vpsim.Memory.EvictionNotice

/-!
# The fast path of the instruction cache

A CPU skips the cache model for a code block while the flag of the block points to `mOne`.
`model_provider_fetch_miss_cb` reads the block through the instruction cache, with the flag as the
handle of the lines it fills, and then lets the flag point to `mOne`. The eviction notifier lets
the flag that a line has as its handle point to `mZero`.
-/

namespace Vpsim.Memory

open Vpsim.Lib

/-- What a flag points to. -/
inductive FlagTarget
  | mZero
  | mOne
  | other
deriving DecidableEq

/-- The cache and the flags of the code blocks, by their addresses. -/
structure FetchState where
  mem : State Unit
  flags : ℕ → FlagTarget

/-- `OnLineEvicted`, which takes the handle for a flag and leaves what is no flag alone. -/
def onLineEvicted (handle : ℕ) (flags : ℕ → FlagTarget) : ℕ → FlagTarget :=
  if flags handle ≠ .mZero ∧ flags handle ≠ .mOne then flags
  else Function.update flags handle .mZero

/-- The notifications between two states, the latest first. -/
def newNotices (s s' : State Unit) : List ℕ := s'.notified.take (s'.notified.length - s.notified.length)

/-- The flags after the notifications between two states. -/
def flagsAfter (flags : ℕ → FlagTarget) (s s' : State Unit) : ℕ → FlagTarget :=
  (newNotices s s').foldr onLineEvicted flags

/-- `convertAddr`: the first mapping (host address, physical address, size) that has the address. -/
def convertAddr (maps : List (ℕ × ℕ × ℕ)) (host : ℕ) : Option ℕ :=
  (maps.find? fun t => t.1 ≤ host ∧ host < add64 t.1 t.2.2).map fun t => add64 t.2.1 (host - t.1)

namespace InstructionCache

variable (c : InstructionCache) (checks : Bool)

/-- One activation of the access function, with its notifications. -/
def noticedLine (x : Access) : EStateM Stop FetchState (Option Access) := fun s =>
  match EStateM.run (c.fetchLine checks x) s.mem with
  | .ok y m => .ok y ⟨m, flagsAfter s.flags s.mem m⟩
  | .error e m => .error e ⟨m, flagsAfter s.flags s.mem m⟩

/-- `ReadData` with its notifications. -/
def noticedRead (size addr initiatorId handle : ℕ) : EStateM Stop FetchState Unit :=
  loop (c.noticedLine checks) .undefined (size + 1)
    { mode := .read, size := size, addr := addr, initiatorId := initiatorId, handle := handle }

/-- `model_provider_fetch_miss_cb` of the CPU `index`. An address without a mapping is fetched from
the physical address 0. -/
def fetchMissCb (maps : List (ℕ × ℕ × ℕ)) (index addr size tbHit : ℕ) : EStateM Stop FetchState Unit := do
  c.noticedRead checks size ((convertAddr maps addr).getD 0) index tbHit
  modify fun s => { s with flags := Function.update s.flags tbHit .mOne }

end InstructionCache

/-- A code block: its host address and its size, an `unsigned`. -/
structure CodeBlock where
  addr : ℕ
  size : ℕ
  size_lt : size < 2 ^ 32

/-- A CPU with its mappings and the blocks that its flags belong to. -/
structure FetchSetup where
  cache : InstructionCache
  checks : Bool
  maps : List (ℕ × ℕ × ℕ)
  index : ℕ
  blocks : ℕ → CodeBlock

namespace FetchSetup

variable (F : FetchSetup)

/-- The geometry of the cache. -/
def geometry : Geometry := F.cache.config.geometry

/-- The callback for the block of a flag. -/
def call (flag : ℕ) : EStateM Stop FetchState Unit :=
  F.cache.fetchMissCb F.checks F.maps F.index (F.blocks flag).addr (F.blocks flag).size flag

/-- An empty cache, and no block that skips it. -/
def init : FetchState := ⟨.init (F.cache.platform F.checks), fun _ => .mZero⟩

/-- The physical address at which the block of a flag is fetched. -/
def physical (flag : ℕ) : ℕ := (convertAddr F.maps (F.blocks flag).addr).getD 0

/-- The byte `k` of the block of a flag. -/
def byte (flag k : ℕ) : ℕ := add64 (F.physical flag) k

/-- The line has the byte at an address. -/
def InLine (line : CacheLine) (b : ℕ) : Prop := sub64 b line.address < F.geometry.cacheLineSize

instance (line : CacheLine) (b : ℕ) : Decidable (F.InLine line b) := inferInstanceAs (Decidable (_ < _))

/-- A valid line of the cache has the byte. -/
def Covers (s : State Unit) (b : ℕ) : Prop :=
  ∃ q : LineRef, q.index < F.geometry.nbSets ∧ (s.cache ()).Way q ∧ ((s.cache ()).line q).Valid ∧
    F.InLine ((s.cache ()).line q) b

/-- While a flag points to `mOne` every byte of its block is in a valid line. -/
def FlagsSound (s : FetchState) : Prop :=
  ∀ flag, s.flags flag = .mOne → ∀ k < (F.blocks flag).size, F.Covers s.mem (F.byte flag k)

/-- The activation is at its own line if it hits. If it misses, the valid line that it replaces has
no byte of a block that skips the cache, unless the line has the flag of the block as its handle, and
no byte of the fetched block that the call has already passed. -/
def SparesBlocks (s : FetchState) (x : Access) : Prop :=
  let found := (s.mem.cache ()).find F.geometry x.addr
  let line := (s.mem.cache ()).line found.2
  (found.1 = true → F.InLine line x.addr) ∧
    (found.1 = false → line.Valid →
      (∀ flag, s.flags flag = .mOne → flag ≠ line.handle →
        ∀ k < (F.blocks flag).size, ¬ F.InLine line (F.byte flag k)) ∧
      ∀ k < (F.blocks x.handle).size - x.size, ¬ F.InLine line (F.byte x.handle k))

end FetchSetup

/-! ## One activation of a fetch -/

/-- What a cache keeps while the lines of a fetch are read: its ways and its policy. -/
structure SameShape (s t : State Unit) : Prop where
  way : ∀ q, (t.cache ()).Way q ↔ (s.cache ()).Way q
  policy : ∀ i, ((t.cache ()).sets i).policy = ((s.cache ()).sets i).policy

/-- What an activation of a fetch does to the lines: nothing on a hit; on a miss the victim makes
room for the line of the address. -/
structure Fetched (pl : Platform Unit) (s : State Unit) (x : Access) (y : Option Access) (t : State Unit) :
    Prop where
  shape : SameShape s t
  notified : t.notified = told pl () s x.addr ++ s.notified
  line : ∀ q, (t.cache ()).line q =
    let found := (s.cache ()).find (pl.cfg ()).geometry x.addr
    if found.1 = false ∧ q = found.2 then
      { address := (pl.cfg ()).geometry.lineBase x.addr
        tag := (pl.cfg ()).geometry.tag x.addr % wordSize
        state := .shared
        handle := x.handle }
    else (s.cache ()).line q
  next : y =
    let size := (pl.cfg ()).geometry.cacheLineSize
    let used := sub64 x.addr
      ((t.cache ()).line ((s.cache ()).find (pl.cfg ()).geometry x.addr).2).address
    if size < add64 used x.size then some (x.rest (sub64 size used)) else none

section

variable {pl : Platform Unit} {s t u : State Unit} {p : LineRef} {isHit : Bool} {E : Stop → State Unit → Prop}

/-- The lines of `t` are those of `s`, except that of the place `p`, which is `l`. -/
structure Replaced (s : State Unit) (p : LineRef) (l : CacheLine) (t : State Unit) : Prop where
  shape : SameShape s t
  notified : t.notified = s.notified
  line : ∀ q, (t.cache ()).line q = if q = p then l else (s.cache ()).line q

theorem Replaced.refl (s : State Unit) (p : LineRef) : Replaced s p ((s.cache ()).line p) s where
  shape := ⟨fun _ => Iff.rfl, fun _ => rfl⟩
  notified := rfl
  line q := by
    split
    · rename_i hq
      rw [hq]
    · rfl

theorem Replaced.modifyLine {l : CacheLine} (h : Replaced s p l t) (f : CacheLine → CacheLine) :
    Replaced s p (f l) (t.modifyCache () fun c => c.modifyLine p f) where
  shape := by
    refine ⟨fun q => ?_, fun i => ?_⟩
    · rw [State.modifyCache_cache, Cache.modifyLine_way_iff, h.shape.way]
    · rw [State.modifyCache_cache, Cache.modifyLine_policy, h.shape.policy]
  notified := h.notified
  line q := by
    rw [State.modifyCache_cache, Cache.modifyLine_line, h.line, if_pos rfl, h.line]
    split
    · rfl
    · rfl

theorem Replaced.sharers {l : CacheLine} (h : Replaced s p l t) (a : ℕ) (f : Finset ℕ → Finset ℕ) :
    Replaced s p l (t.modifyCache () fun c =>
      { c with sharers := Function.update c.sharers a (f (c.sharers a)) }) where
  shape := by
    refine ⟨fun q => ?_, fun i => ?_⟩
    · rw [State.modifyCache_cache]
      exact h.shape.way q
    · rw [State.modifyCache_cache]
      exact h.shape.policy i
  notified := h.notified
  line q := by
    rw [State.modifyCache_cache]
    exact h.line q

/-- Without inclusion on either side only a modified victim has to be attended to. -/
theorem nonCoherentReplace_nine {io : DataPorts Unit} (hhigher : (pl.cfg ()).inclusionOfHigher = .nine)
    (hlower : (pl.cfg ()).inclusionOfLower = .nine)
    (hclean : ((s.cache ()).line p).state ≠ .modified) :
    wp (nonCoherentReplace pl io () isHit p) (fun _ s' => s' = s) E s := by
  refine .step (wp_getLine_any (.step (wp_runIf_neg (fun hc => hclean hc.2.1) ?_)))
  refine .step (wp_getLine_any (.step (wp_runIf_neg (by simp [hlower]) ?_)))
  exact wp_runIf_neg (by simp [hhigher]) rfl

/-- The read marks the line of a miss. -/
theorem nonCoherentRead_replaced {l : CacheLine} {initiatorId : ℕ} (h : Replaced s p l t)
    (hhigher : (pl.cfg ()).inclusionOfHigher = .nine) :
    wp (nonCoherentRead pl instructionHooks.toDataPorts () isHit p initiatorId)
      (fun _ => Replaced s p (if isHit = false then l.setState .shared else l)) E t := by
  refine .step (wp_check (.inl (.inl (by simp [hhigher]))) (.step (wp_getLine_any (.step ?_))))
  have hread := h.sharers ((t.cache ()).line p).address (insert initiatorId)
  change wp (if isHit = false then _ else _) _ _ _
  cases isHit with
  | false => exact .step (hread.modifyLine fun l => l.setState .shared)
  | true => exact wp_runIf_neg (by simp [hhigher]) hread

/-- The line at the place of a fetch, before it is marked. -/
def placedLine (g : Geometry) (isHit : Bool) (addr handle : ℕ) (l : CacheLine) : CacheLine :=
  if isHit = false then l.setNewLine (g.lineBase addr) (g.tag addr) handle else l

/-- The allocation of the line of a miss. -/
theorem allocate_replaced {addr handle : ℕ} (halloc : (pl.cfg ()).allocPolicy = .wAllocate) :
    wp (allocate pl () isHit p ((pl.cfg ()).geometry.lineBase addr) addr handle)
      (fun _ => Replaced s p (placedLine (pl.cfg ()).geometry isHit addr handle ((s.cache ()).line p))) E s := by
  cases isHit with
  | false => exact wp_runIf_pos ⟨rfl, halloc⟩ ((Replaced.refl s p).modifyLine _)
  | true => exact wp_runIf_neg (by simp) (Replaced.refl s p)

/-- The allocation, the read and the number of bytes of the line if the access goes on. -/
theorem nonCoherentAllocating_fetch {size addr initiatorId handle : ℕ}
    (hhigher : (pl.cfg ()).inclusionOfHigher = .nine) (hlower : (pl.cfg ()).inclusionOfLower = .nine)
    (halloc : (pl.cfg ()).allocPolicy = .wAllocate)
    (hclean : ((s.cache ()).line p).state ≠ .modified) :
    let g := (pl.cfg ()).geometry
    let l := placedLine g isHit addr handle ((s.cache ()).line p)
    let used := sub64 addr l.address
    wp (nonCoherentAllocating pl instructionHooks.toDataPorts () .read isHit p size addr initiatorId handle)
      (fun n t => Replaced s p (if isHit = false then l.setState .shared else l) t ∧
        n = if g.cacheLineSize < add64 used size then some (sub64 g.cacheLineSize used) else none)
      (fun e _ => e = .assertion) s := by
  intro g l used
  refine .step (wp_getLine_any (.step (wp_check (.inr fun _ => rfl) ?_)))
  refine .bind (nonCoherentReplace_nine hhigher hlower hclean) fun _ s₁ hs₁ => ?_
  subst hs₁
  refine .bind (allocate_replaced halloc) fun _ s₂ h₂ => .step (wp_getLine_any (.step ?_))
  have hl : (s₂.cache ()).line p = l := by rw [h₂.line, if_pos rfl]
  rw [hl]
  refine wp_check (.inr fun _ => rfl) (.bind (nonCoherentRead_replaced h₂ hhigher) fun _ s₃ h₃ => ?_)
  refine ⟨h₃, ?_⟩
  split
  · rfl
  · rfl

/-- The notification of an activation, after its lookup, tells what `told` says and leaves the cache. -/
theorem notifyVictim_told {addr : ℕ} (hfound : (s.cache ()).find (pl.cfg ()).geometry addr = (isHit, p))
    (hline : (t.cache ()).line p = (s.cache ()).line p) (hnotified : t.notified = s.notified) :
    wp (notifyVictim pl () isHit p)
      (fun _ t' => t'.cache = t.cache ∧ t'.notified = told pl () s addr ++ s.notified) E t := by
  refine .step (wp_getLine_any (wp_runIf (fun hc => ⟨rfl, ?_⟩) fun hc => ⟨rfl, ?_⟩))
  · rw [hline] at hc ⊢
    unfold told
    rw [hfound, if_pos hc, ← hnotified]
    rfl
  · rw [hline] at hc
    unfold told
    rw [hfound, if_neg hc, ← hnotified]
    rfl

/-- One activation of a fetch does what `Fetched` describes, or violates an assertion. -/
theorem fetchLine_spec {x : Access} (hmode : x.mode = .read)
    (hhigher : (pl.cfg ()).inclusionOfHigher = .nine) (hlower : (pl.cfg ()).inclusionOfLower = .nine)
    (halloc : (pl.cfg ()).allocPolicy = .wAllocate) (hpolicy : ∀ i, ((s.cache ()).sets i).policy ≠ .fifo)
    (hclean : ∀ q, ((s.cache ()).line q).state ≠ .modified) :
    wp (x.nonCoherentLine pl instructionHooks.toDataPorts ()) (fun y t => Fetched pl s x y t)
      (fun e _ => e = .assertion) s := by
  rcases hfound : (s.cache ()).find (pl.cfg ()).geometry x.addr with ⟨isHit, p⟩
  refine .bind ?_ fun n t (h : Fetched pl s x (n.map x.rest) t) => h
  refine .step (wp_lookup_find (fun hp => absurd hp (hpolicy _)) fun f hf _ => ?_)
  rw [hfound]
  have hcache : (s.modifyCache () f).cache () = f (s.cache ()) := State.modifyCache_cache ..
  refine .step (wp_getLine_any (.step (wp_check (.inr fun _ => rfl) ?_)))
  refine .bind (notifyVictim_told hfound (by rw [hcache, hf.line]) rfl) fun _ s₂ h₂ => ?_
  obtain ⟨hcache₂, hnotified₂⟩ := h₂
  have hline₂ (q : LineRef) : (s₂.cache ()).line q = (s.cache ()).line q := by
    rw [hcache₂, hcache, hf.line]
  rw [hmode]
  refine .ite_neg (by simp) (.ite_neg (by simp) (.ite_neg (by simp [hhigher]) ?_))
  refine (nonCoherentAllocating_fetch hhigher hlower halloc ?_).mono fun n t h => ?_
  · rw [hline₂]
    exact hclean p
  obtain ⟨hreplaced, hn⟩ := h
  rw [hline₂] at hreplaced hn
  refine ⟨⟨fun q => ?_, fun i => ?_⟩, hreplaced.notified.trans hnotified₂, fun q => ?_, ?_⟩
  · rw [hreplaced.shape.way, hcache₂, hcache, hf.way_iff]
  · rw [hreplaced.shape.policy, hcache₂, hcache, (hf.sets i).policy]
  · rw [hreplaced.line, hline₂, hfound]
    cases isHit with
    | false => simp [placedLine, CacheLine.setNewLine, CacheLine.setState]
    | true =>
      simp only [placedLine, Bool.true_eq_false, false_and, if_false]
      split
      · rename_i hq
        rw [hq]
      · rfl
  · rw [hn, hfound, hreplaced.line, if_pos rfl, apply_ite (Option.map x.rest)]
    cases isHit with
    | false => rfl
    | true => rfl

end

/-! ## A call -/

/-- After an activation the flags are those that its notifications leave. -/
theorem flagsAfter_eq {s t : State Unit} {l : List ℕ} (flags : ℕ → FlagTarget)
    (h : t.notified = l ++ s.notified) : flagsAfter flags s t = l.foldr onLineEvicted flags := by
  unfold flagsAfter newNotices
  rw [h, List.length_append, Nat.add_sub_cancel, List.take_left]

/-- A flag that points to `mOne` after a notification did before, and is not the notified one. -/
theorem onLineEvicted_eq_mOne {handle flag : ℕ} {flags : ℕ → FlagTarget}
    (h : onLineEvicted handle flags flag = .mOne) : flags flag = .mOne ∧ flag ≠ handle := by
  unfold onLineEvicted at h
  split at h
  · rename_i hother
    refine ⟨h, fun heq => ?_⟩
    rw [← heq] at hother
    exact hother.2 h
  · rw [Function.update_apply] at h
    split at h
    · cases h
    · rename_i hne
      exact ⟨h, hne⟩

namespace FetchSetup

variable {F : FetchSetup} {s t : FetchState} {x : Access} {y : Option Access} {b : ℕ}

/-- What every call of a run keeps. -/
structure Inv (F : FetchSetup) (s : FetchState) : Prop where
  policy : ∀ i, ((s.mem.cache ()).sets i).policy ≠ .fifo
  clean : ∀ q, ((s.mem.cache ()).line q).state ≠ .modified
  sound : F.FlagsSound s

/-- In the course of a call, before the access `x`: the bytes before it are in the cache. -/
structure Passed (F : FetchSetup) (s : FetchState) (x : Access) : Prop where
  inv : F.Inv s
  mode : x.mode = .read
  size_le : x.size ≤ (F.blocks x.handle).size
  addr : x.addr = F.byte x.handle ((F.blocks x.handle).size - x.size)
  covers : ∀ k < (F.blocks x.handle).size - x.size, F.Covers s.mem (F.byte x.handle k)

/-- The place that the activation finds. -/
def place (F : FetchSetup) (s : State Unit) (x : Access) : Bool × LineRef :=
  (s.cache ()).find F.geometry x.addr

/-- A byte stays in the cache if the replaced line does not have it. -/
theorem Covers.fetched {s t : State Unit} (h : F.Covers s b) (hf : Fetched (F.cache.platform F.checks) s x y t)
    (hspared : (F.place s x).1 = false → ((s.cache ()).line (F.place s x).2).Valid →
      ¬ F.InLine ((s.cache ()).line (F.place s x).2) b) : F.Covers t b := by
  obtain ⟨q, hq, hway, hvalid, hin⟩ := h
  have hline : (t.cache ()).line q = (s.cache ()).line q := by
    refine (hf.line q).trans (if_neg ?_)
    rintro ⟨hmiss, rfl⟩
    exact hspared hmiss hvalid hin
  refine ⟨q, hq, (hf.shape.way q).2 hway, ?_, ?_⟩
  · rw [hline]
    exact hvalid
  · rw [hline]
    exact hin

/-- An address at a distance from one in the line is as much further from the base. -/
theorem sub64_add64 {a base n : ℕ} (h : sub64 a base + n < 2 ^ 64) :
    sub64 (add64 a n) base = sub64 a base + n := by
  unfold sub64 add64 at *
  omega

/-- The line at the place of an activation is valid and has the byte of the access. -/
theorem fetched_place {s t : State Unit} (hf : Fetched (F.cache.platform F.checks) s x y t)
    (haddr : x.addr < 2 ^ 64)
    (hhit : (F.place s x).1 = true → F.InLine ((s.cache ()).line (F.place s x).2) x.addr) :
    ((t.cache ()).line (F.place s x).2).Valid ∧ F.InLine ((t.cache ()).line (F.place s x).2) x.addr := by
  have hline := hf.line (F.place s x).2
  cases hfound : (F.place s x).1 with
  | true =>
    have hkept : (t.cache ()).line (F.place s x).2 = (s.cache ()).line (F.place s x).2 := by
      refine hline.trans (if_neg ?_)
      rintro ⟨hmiss, -⟩
      exact absurd (hfound.symm.trans hmiss) (by decide)
    rw [hkept]
    exact ⟨Cache.find_valid hfound, hhit hfound⟩
  | false =>
    have hnew := hline.trans (if_pos ⟨hfound, rfl⟩)
    have hoffset : x.addr - F.geometry.lineBase x.addr < F.geometry.cacheLineSize :=
      F.cache.accepted.sub_lineBase_lt x.addr
    have hle := Geometry.lineBase_le (g := F.geometry) x.addr
    have hsub : sub64 x.addr (F.geometry.lineBase x.addr) = x.addr - F.geometry.lineBase x.addr := by
      unfold sub64
      omega
    rw [hnew]
    refine ⟨by simp [CacheLine.Valid], ?_⟩
    change sub64 x.addr (F.geometry.lineBase x.addr) < _
    rw [hsub]
    exact hoffset

/-- After an activation the bytes of the access that lie in its line are in the cache. -/
theorem covers_place {s t : State Unit} (hf : Fetched (F.cache.platform F.checks) s x y t)
    (haddr : x.addr < 2 ^ 64)
    (hhit : (F.place s x).1 = true → F.InLine ((s.cache ()).line (F.place s x).2) x.addr) {n : ℕ}
    (hn : sub64 x.addr ((t.cache ()).line (F.place s x).2).address + n < F.geometry.cacheLineSize) :
    F.Covers t (add64 x.addr n) := by
  obtain ⟨hvalid, -⟩ := fetched_place hf haddr hhit
  obtain ⟨hway, hindex⟩ := (s.cache ()).find_way F.geometry x.addr
  refine ⟨(F.place s x).2, ?_, (hf.shape.way _).2 hway, hvalid, ?_⟩
  · unfold place
    rw [hindex]
    exact F.cache.accepted.index_lt x.addr
  · have hsize : F.geometry.cacheLineSize < 2 ^ 32 := F.cache.lineSize_lt
    unfold InLine
    rw [sub64_add64 (by omega)]
    exact hn

/-- The bytes of a block lie one after the other. -/
theorem add64_byte (flag j n : ℕ) : add64 (F.byte flag j) n = F.byte flag (j + n) := by
  unfold byte add64
  omega

/-- The flags that point to `mOne` after an activation did before it, and their blocks have no byte in the
line that it replaces. -/
theorem flags_spared (hinv : F.Inv s) (hspares : F.SparesBlocks s x)
    (hf : Fetched (F.cache.platform F.checks) s.mem x y t.mem)
    (hflags : t.flags = flagsAfter s.flags s.mem t.mem) {flag : ℕ} (hflag : t.flags flag = .mOne) :
    s.flags flag = .mOne ∧ ((F.place s.mem x).1 = false →
      ((s.mem.cache ()).line (F.place s.mem x).2).Valid → ∀ k < (F.blocks flag).size,
        ¬ F.InLine ((s.mem.cache ()).line (F.place s.mem x).2) (F.byte flag k)) := by
  rw [hflags, flagsAfter_eq s.flags hf.notified] at hflag
  unfold told at hflag
  dsimp only at hflag
  split at hflag
  · obtain ⟨hbefore, hne⟩ := onLineEvicted_eq_mOne hflag
    exact ⟨hbefore, fun hmiss hvalid => (hspares.2 hmiss hvalid).1 flag hbefore hne⟩
  · rename_i hquiet
    refine ⟨hflag, fun hmiss hvalid => absurd ⟨hmiss, ?_, rfl⟩ hquiet⟩
    have hclean := hinv.clean (F.place s.mem x).2
    change ((s.mem.cache ()).line (F.place s.mem x).2).state = .shared
    cases hstate : ((s.mem.cache ()).line (F.place s.mem x).2).state with
    | modified => exact absurd hstate hclean
    | shared => rfl
    | invalid => exact absurd hstate hvalid

/-- An activation keeps what every call keeps. -/
theorem Inv.fetched (hinv : F.Inv s) (hspares : F.SparesBlocks s x)
    (hf : Fetched (F.cache.platform F.checks) s.mem x y t.mem)
    (hflags : t.flags = flagsAfter s.flags s.mem t.mem) : F.Inv t where
  policy i := by
    rw [hf.shape.policy]
    exact hinv.policy i
  clean q := by
    rw [hf.line]
    dsimp only
    split
    · simp
    · exact hinv.clean q
  sound flag hflag k hk := by
    obtain ⟨hbefore, hspared⟩ := flags_spared hinv hspares hf hflags hflag
    exact (hinv.sound flag hbefore k hk).fetched hf fun hmiss hvalid => hspared hmiss hvalid k hk

/-- An activation leaves the flags as its notifications do. -/
theorem wp_noticedLine {Q : Option Access → State Unit → Prop} {Q' : Option Access → FetchState → Prop}
    (h : wp (F.cache.fetchLine F.checks x) Q (fun e _ => e = .assertion) s.mem)
    (hQ : ∀ y m, Q y m → Q' y ⟨m, flagsAfter s.flags s.mem m⟩) :
    wp (F.cache.noticedLine F.checks x) Q' (fun e _ => e = .assertion) s := by
  unfold wp InstructionCache.noticedLine EStateM.run at *
  cases hrun : F.cache.fetchLine F.checks x s.mem with
  | ok y m =>
    rw [hrun] at h
    exact hQ y m h
  | error e m =>
    rw [hrun] at h
    exact h

/-- The size of the rest of an access to a block is the difference, without wrapping. -/
theorem sub64_size (h : F.Passed s x) {n : ℕ} (hn : n ≤ x.size) : sub64 x.size n = x.size - n := by
  have hblock := (F.blocks x.handle).size_lt
  have hle := h.size_le
  unfold sub64
  omega

/-- The rest of an access to a block has passed the bytes up to it when they are covered. -/
theorem Passed.rest (h : F.Passed s x) (hinv : F.Inv t) {n : ℕ} (hn : n ≤ x.size)
    (hcovers : ∀ k < (F.blocks x.handle).size - x.size + n, F.Covers t.mem (F.byte x.handle k)) :
    F.Passed t (x.rest n) := by
  have hle := h.size_le
  have hpassed : (F.blocks x.handle).size - (x.size - n) = (F.blocks x.handle).size - x.size + n := by omega
  refine ⟨hinv, h.mode, ?_, ?_, ?_⟩
  · change sub64 x.size n ≤ (F.blocks x.handle).size
    rw [sub64_size h hn]
    omega
  · change add64 x.addr n = F.byte x.handle ((F.blocks x.handle).size - sub64 x.size n)
    rw [sub64_size h hn, hpassed, h.addr, add64_byte]
  · change ∀ k < (F.blocks x.handle).size - sub64 x.size n, F.Covers t.mem (F.byte x.handle k)
    rw [sub64_size h hn, hpassed]
    exact hcovers

/-- One activation of a call covers its bytes and ends the call or passes on less. -/
theorem noticedLine_passed (h : F.Passed s x) (hspares : F.SparesBlocks s x) :
    wp (F.cache.noticedLine F.checks x)
      (fun y t =>
        (y = none → F.Inv t ∧ ∀ k < (F.blocks x.handle).size, F.Covers t.mem (F.byte x.handle k)) ∧
        ∀ z, y = some z → (F.Passed t z ∧ z.handle = x.handle) ∧ z.size < x.size)
      (fun e _ => e = .assertion) s := by
  refine wp_noticedLine (fetchLine_spec h.mode rfl rfl rfl h.inv.policy h.inv.clean) fun y m hf => ?_
  have hinv : F.Inv ⟨m, flagsAfter s.flags s.mem m⟩ := h.inv.fetched hspares hf rfl
  have haddr : x.addr < 2 ^ 64 := by
    rw [h.addr]
    exact Nat.mod_lt _ (by decide)
  have hlineSize : F.geometry.cacheLineSize < 2 ^ 32 := F.cache.lineSize_lt
  have hblock := (F.blocks x.handle).size_lt
  have hle := h.size_le
  obtain ⟨-, hin⟩ := fetched_place hf haddr hspares.1
  have hnext : y = if F.geometry.cacheLineSize <
        add64 (sub64 x.addr ((m.cache ()).line (F.place s.mem x).2).address) x.size then
      some (x.rest (sub64 F.geometry.cacheLineSize
        (sub64 x.addr ((m.cache ()).line (F.place s.mem x).2).address)))
    else none := hf.next
  have hnew {n : ℕ} := covers_place (n := n) hf haddr hspares.1
  unfold InLine at hin
  generalize sub64 x.addr ((m.cache ()).line (F.place s.mem x).2).address = used at hin hnew hnext
  have hsum : add64 used x.size = used + x.size := Nat.mod_eq_of_lt (by omega)
  -- The bytes up to the end of the line: those before the access, and those of the access.
  have hcovers (k : ℕ) (hk : used + k < F.geometry.cacheLineSize + ((F.blocks x.handle).size - x.size)) :
      F.Covers m (F.byte x.handle k) := by
    by_cases hpassed : k < (F.blocks x.handle).size - x.size
    · exact (h.covers k hpassed).fetched hf fun hmiss hvalid => (hspares.2 hmiss hvalid).2 k hpassed
    · have hbyte := hnew (n := k - ((F.blocks x.handle).size - x.size)) (by omega)
      rw [h.addr, add64_byte, Nat.add_sub_cancel' (Nat.le_of_not_lt hpassed)] at hbyte
      exact hbyte
  rw [hsum] at hnext
  split at hnext
  · rename_i hlong
    have hn : sub64 F.geometry.cacheLineSize used = F.geometry.cacheLineSize - used := by
      unfold sub64
      omega
    have hlt : F.geometry.cacheLineSize - used < x.size := by omega
    refine ⟨fun hy => ?_, fun z hz => ?_⟩
    · rw [hnext] at hy
      cases hy
    · rw [hnext, hn] at hz
      cases hz
      refine ⟨⟨h.rest hinv hlt.le fun k hk => hcovers k (by omega), rfl⟩, ?_⟩
      change sub64 x.size (F.geometry.cacheLineSize - used) < x.size
      rw [sub64_size h hlt.le]
      omega
  · rename_i hshort
    refine ⟨fun _ => ⟨hinv, fun k hk => hcovers k (by omega)⟩, fun z hz => ?_⟩
    rw [hnext] at hz
    cases hz

/-- Blocks are fetched from 64-bit addresses. -/
theorem physical_lt (flag : ℕ) : F.physical flag < 2 ^ 64 := by
  unfold physical convertAddr
  cases F.maps.find? fun t => t.1 ≤ (F.blocks flag).addr ∧ (F.blocks flag).addr < add64 t.1 t.2.2 with
  | none => exact Nat.two_pow_pos 64
  | some t => exact Nat.mod_lt _ (Nat.two_pow_pos 64)

/-- The first access of a call. -/
def access (F : FetchSetup) (flag : ℕ) : Access :=
  { mode := .read, size := (F.blocks flag).size, addr := F.physical flag, initiatorId := F.index, handle := flag }

/-- Every activation of a call spares the blocks that skip the cache. -/
def CallSpares (F : FetchSetup) (s : FetchState) (flag : ℕ) : Prop :=
  Rounds (F.cache.noticedLine F.checks) F.SparesBlocks ((F.blocks flag).size + 1) s (F.access flag)

/-- A call for a block that it spares keeps the invariant. -/
theorem call_inv {flag : ℕ} (h : F.Inv s) (hspares : F.CallSpares s flag) :
    wp (F.call flag) (fun _ => F.Inv) (fun e _ => e = .assertion) s := by
  have hfirst : F.Passed s (F.access flag) ∧ (F.access flag).handle = flag := by
    refine ⟨⟨h, rfl, le_rfl, ?_, fun k hk => ?_⟩, rfl⟩
    · change F.physical flag = add64 (F.physical flag) ((F.blocks flag).size - (F.blocks flag).size)
      rw [Nat.sub_self]
      exact (Nat.mod_eq_of_lt (physical_lt flag)).symm
    · change k < (F.blocks flag).size - (F.blocks flag).size at hk
      omega
  have hread : wp (F.cache.noticedRead F.checks (F.blocks flag).size (F.physical flag) F.index flag)
      (fun _ t => F.Inv t ∧ ∀ k < (F.blocks flag).size, F.Covers t.mem (F.byte flag k))
      (fun e _ => e = .assertion) s := by
    refine hspares.wp_loop_of_lt (fun t x => F.Passed t x ∧ x.handle = flag) Access.size ?_
      (Nat.lt_succ_self _) hfirst
    rintro t x ⟨hx, rfl⟩ ht
    exact noticedLine_passed hx ht
  refine hread.bind fun _ t ht => ?_
  obtain ⟨hinv, hcovers⟩ := ht
  refine ⟨hinv.policy, hinv.clean, fun f hf k hk => ?_⟩
  change Function.update t.flags flag .mOne f = .mOne at hf
  by_cases heq : f = flag
  · subst heq
    exact hcovers k hk
  · rw [Function.update_of_ne heq] at hf
    exact hinv.sound f hf k hk

/-- In every run whose calls spare the blocks that skip the cache, these blocks stay in the cache. A run
is stopped by an assertion only. -/
theorem flags_sound {flags : List ℕ} (h : Along F.call F.CallSpares F.init flags) :
    wp (flags.forM F.call) (fun _ => F.FlagsSound) (fun e _ => e = .assertion) F.init := by
  have hinit : F.Inv F.init := by
    refine ⟨fun i hpolicy => ?_, fun q hstate => ?_, fun flag hflag => ?_⟩
    · change CacheReplacementPolicy.lru = .fifo at hpolicy
      cases hpolicy
    · change CoherenceState.invalid = .modified at hstate
      cases hstate
    · cases hflag
  exact (h.wp_forM (fun s flag _ hs hc => call_inv hs hc) hinit).mono fun _ _ hs => hs.sound

/-- A cache of one line, memory mapped to itself, and four blocks of 8 bytes: two in the line 0, the others
in the line 64. -/
def oneLineSetup : FetchSetup where
  cache := InstructionCache.oneBlock
  checks := true
  maps := [(0, 0, 4096)]
  index := 0
  blocks flag := ⟨if flag = 1 then 0 else if flag = 2 then 8 else 64, 8, by decide⟩

/-- Two blocks one after the other: the second takes the place of the line of the first, whose flag is
reset. -/
theorem flags_sound_oneLine :
    wp ([1, 3].forM oneLineSetup.call) (fun _ => oneLineSetup.FlagsSound) (fun e _ => e = .assertion)
      oneLineSetup.init := by
  have hflags : (endState (oneLineSetup.call 1 oneLineSetup.init)).flags =
      Function.update (fun _ => .mZero) 1 .mOne := rfl
  refine flags_sound (.cons (.last ⟨by decide +kernel, ?_⟩ (by decide +kernel)) ?_)
  · intro _ hvalid
    exact absurd rfl hvalid
  refine .cons (.last ⟨by decide +kernel, fun _ _ => ⟨fun flag hflag hne => ?_, fun k hk => ?_⟩⟩
    (by decide +kernel)) trivial
  · rw [hflags, Function.update_apply] at hflag
    split at hflag
    · rename_i heq
      refine absurd (heq.trans ?_) hne
      decide +kernel
    · cases hflag
  · exact absurd hk (Nat.not_lt_zero k)

/-- The second block of the line 0 hits, so the line keeps the flag of the first. When the line is
replaced the flag of the second still points to `mOne`. -/
theorem flag_not_reset : ¬ ∀ (F : FetchSetup) (flags : List ℕ) (s : FetchState),
    flags.forM F.call F.init = .ok ⟨⟩ s → F.FlagsSound s := by
  intro hclaim
  have hsound := hclaim oneLineSetup [1, 2, 3] _ (eq_ok_endState (by decide +kernel))
  obtain ⟨⟨i, w⟩, hi, hw, -, hin⟩ := hsound 2 (by decide +kernel) 0 (by decide)
  obtain rfl : i = 0 := Nat.lt_one_iff.1 hi
  obtain rfl : w = 0 := Nat.lt_one_iff.1 hw
  revert hin
  decide +kernel

end FetchSetup

end Vpsim.Memory
