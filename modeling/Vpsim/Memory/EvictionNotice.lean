import Vpsim.Memory.AccessKeeps
import Vpsim.Memory.DirtyLines

/-!
# Eviction notifications

The four access functions on one cache whose transactions leave the cache alone. The handles of
the notifications of an activation are compared with the handles of the lines that it replaces.

What an activation does to the identities of the lines (address, tag and handle) is fixed by
the lookup and by whether the command allocates.
-/

namespace Vpsim.Memory

open Vpsim.Lib

/-- The access functions of `CacheBase`. -/
inductive AccessFunction
  | nonCoherent
  | cpu
  | l2
  | home
deriving DecidableEq

/-- Whether a command that misses allocates a line. -/
def AccessFunction.Allocates (cfg : CacheConfig) (mode : CoherenceCommand) : AccessFunction → Prop
  | .nonCoherent => mode ≠ .invalidate ∧ mode ≠ .readBack ∧
      ¬ (cfg.inclusionOfHigher = .exclusive ∧ mode = .read)
  | .cpu => mode ≠ .fwdGetS ∧ mode ≠ .fwdGetM ∧ mode ≠ .putI
  | .l2 => mode ≠ .fwdGetS ∧ mode ≠ .fwdGetM ∧ mode ≠ .putS ∧ mode ≠ .putI
  | .home => ¬ (cfg.inclusionOfHigher = .exclusive ∧ (mode = .getS ∨ mode = .getM))

instance (cfg : CacheConfig) (mode : CoherenceCommand) (f : AccessFunction) :
    Decidable (f.Allocates cfg mode) := by
  unfold AccessFunction.Allocates
  cases f <;> infer_instance

/-- A call of one of the access functions. -/
structure Call where
  function : AccessFunction
  access : Access
deriving DecidableEq

section Calls

variable {ι : Type} [DecidableEq ι] (pl : Platform ι) (io : Ports ι) (data : DataPorts ι) (r : ι)

/-- One activation of the called function, with the number of bytes after which the access goes on. -/
def Call.activation (x : Call) : CacheM ι (Option ℕ) :=
  let a := x.access
  match x.function with
  | .nonCoherent => accessNonCoherentLine pl data r a.mode a.size a.addr a.initiatorId a.handle
  | .cpu => accessCpuLine pl io r a.mode a.size a.addr a.initiatorId a.handle
  | .l2 => do
    accessL2Cache pl io r a.mode a.size a.addr a.initiatorId a.handle
    return none
  | .home => do
    accessCoherentHome pl io r a.mode a.size a.addr a.initiatorId a.handle
    return none

/-- One activation, with the call that is left for the next one. -/
def Call.line (x : Call) : CacheM ι (Option Call) := do
  let n ← x.activation pl io data r
  return n.map fun n => ⟨x.function, x.access.rest n⟩

/-- A call of an access function, for at most `fuel + 1` lines. -/
def Call.perform (fuel : ℕ) (x : Call) : CacheM ι Unit :=
  let a := x.access
  match x.function with
  | .nonCoherent =>
    accessNonCoherentCache pl data r a.mode a.initiatorId a.handle (fuel + 1) a.size a.addr
  | .cpu => accessCpuCache pl io r a.mode a.initiatorId a.handle (fuel + 1) a.size a.addr
  | .l2 => accessL2Cache pl io r a.mode a.size a.addr a.initiatorId a.handle
  | .home => accessCoherentHome pl io r a.mode a.size a.addr a.initiatorId a.handle

/-- A call goes from one activation to the next. -/
theorem Call.perform_eq_loop (fuel : ℕ) (x : Call) :
    x.perform pl io data r fuel = loop (Call.line pl io data r) .undefined (fuel + 1) x := by
  obtain ⟨f, a⟩ := x
  cases f with
  | nonCoherent =>
    unfold Call.perform
    dsimp only
    generalize fuel + 1 = n
    induction n generalizing a with
    | zero => rfl
    | succ n ih =>
      unfold accessNonCoherentCache loop Call.line
      rw [bind_assoc]
      refine bind_congr fun k => ?_
      rw [pure_bind]
      cases k with
      | none => rfl
      | some k => exact ih (a.rest k)
  | cpu =>
    unfold Call.perform
    dsimp only
    generalize fuel + 1 = n
    induction n generalizing a with
    | zero => rfl
    | succ n ih =>
      unfold accessCpuCache loop Call.line
      rw [bind_assoc]
      refine bind_congr fun k => ?_
      rw [pure_bind]
      cases k with
      | none => rfl
      | some k => exact ih (a.rest k)
  | l2 =>
    unfold loop Call.line Call.activation Call.perform
    simp only [bind_assoc, pure_bind, Option.map_none, bind_pure_unit]
  | home =>
    unfold loop Call.line Call.activation Call.perform
    simp only [bind_assoc, pure_bind, Option.map_none, bind_pure_unit]

end Calls

/-! ## The identities of the lines -/

section

variable {ι : Type} {pl : Platform ι} {r : ι} {s t t' : State ι} {p : LineRef} {addr : ℕ}

/-- What a place keeps while its line is not replaced. -/
def CacheLine.identity (l : CacheLine) : ℕ × ℕ × ℕ := (l.address, l.tag, l.handle)

/-- The lines of the cache, and the notifications, are the same. -/
structure SameLinesAt (r : ι) (s s' : State ι) : Prop where
  notified : s'.notified = s.notified
  way : ∀ q, (s'.cache r).Way q ↔ (s.cache r).Way q
  line : ∀ q, (s'.cache r).line q = (s.cache r).line q

/-- The identities of the lines, and the notifications, are the same. -/
structure SameIds (r : ι) (s s' : State ι) : Prop where
  notified : s'.notified = s.notified
  way : ∀ q, (s'.cache r).Way q ↔ (s.cache r).Way q
  identity : ∀ q, ((s'.cache r).line q).identity = ((s.cache r).line q).identity

instance : IsPreorder (State ι) (SameLinesAt r) where
  refl _ := ⟨rfl, fun _ => Iff.rfl, fun _ => rfl⟩
  trans _ _ _ h h' := ⟨h'.notified.trans h.notified, fun q => (h'.way q).trans (h.way q),
    fun q => (h'.line q).trans (h.line q)⟩

instance : IsPreorder (State ι) (SameIds r) where
  refl _ := ⟨rfl, fun _ => Iff.rfl, fun _ => rfl⟩
  trans _ _ _ h h' := ⟨h'.notified.trans h.notified, fun q => (h'.way q).trans (h.way q),
    fun q => (h'.identity q).trans (h.identity q)⟩

theorem SameLinesAt.sameIds (h : SameLinesAt r s t) : SameIds r s t :=
  ⟨h.notified, h.way, fun q => by rw [h.line]⟩

/-- What happens behind the ports leaves the cache and the notifications alone. -/
def Apart (r : ι) (s s' : State ι) : Prop := s'.cache r = s.cache r ∧ s'.notified = s.notified

theorem Apart.sameIds (h : Apart r s t) : SameIds r s t :=
  ⟨h.2, fun q => by rw [h.1], fun q => by rw [h.1]⟩

theorem Ports.Keep.sameIds {io : Ports ι} (h : io.Keep (Apart r)) : io.Keep (SameIds r) where
  socketOut0 t := (h.socketOut0 t).mono fun _ _ => Apart.sameIds
  socketOut1 t := (h.socketOut1 t).mono fun _ _ => Apart.sameIds
  forwardReadData a := (h.forwardReadData a).mono fun _ _ => Apart.sameIds
  forwardWriteData a := (h.forwardWriteData a).mono fun _ _ => Apart.sameIds
  forwardEvict a := (h.forwardEvict a).mono fun _ _ => Apart.sameIds

theorem DataPorts.Keep.sameIds {io : DataPorts ι} (h : io.Keep (Apart r)) : io.Keep (SameIds r) where
  forwardReadData a n := (h.forwardReadData a n).mono fun _ _ => Apart.sameIds
  forwardWriteData a n := (h.forwardWriteData a n).mono fun _ _ => Apart.sameIds
  forwardEvict a n := (h.forwardEvict a n).mono fun _ _ => Apart.sameIds
  backInvalidate a ids := (h.backInvalidate a ids).mono fun _ _ => Apart.sameIds
  backwardRead a n ids := (h.backwardRead a n ids).mono fun _ _ => Apart.sameIds

/-- The notifications of an activation that starts in `s`. -/
def told (pl : Platform ι) (r : ι) (s : State ι) (addr : ℕ) : List ℕ :=
  let found := (s.cache r).find (pl.cfg r).geometry addr
  let line := (s.cache r).line found.2
  if found.1 = false ∧ line.state = .shared ∧ (pl.cfg r).notifyEvictions = true then [line.handle]
  else []

/-- In the course of an activation for `addr` from `s`, after the notification: only the place of the
victim may have another line, that of `addr`, if it is `installed`. -/
structure Course (pl : Platform ι) (r : ι) (s : State ι) (addr : ℕ) (installed : Bool) (t : State ι) :
    Prop where
  notified : t.notified = told pl r s addr ++ s.notified
  way : ∀ q, (t.cache r).Way q ↔ (s.cache r).Way q
  other : ∀ q, (q = ((s.cache r).find (pl.cfg r).geometry addr).2 → installed = false) →
    ((t.cache r).line q).identity = ((s.cache r).line q).identity
  placed : installed = true →
    let line := (t.cache r).line ((s.cache r).find (pl.cfg r).geometry addr).2
    line.tag = (pl.cfg r).geometry.tag line.address % wordSize ∧
      (pl.cfg r).geometry.tag line.address = (pl.cfg r).geometry.tag addr

variable {installed : Bool} {α : Type} {Q : α → State ι → Prop}

theorem Course.sameIds (h : Course pl r s addr installed t) (h' : SameIds r t t') :
    Course pl r s addr installed t' where
  notified := h'.notified.trans h.notified
  way q := (h'.way q).trans (h.way q)
  other q hq := (h'.identity q).trans (h.other q hq)
  placed hi := by
    have hid := h'.identity ((s.cache r).find (pl.cfg r).geometry addr).2
    simp only [CacheLine.identity, Prod.mk.injEq] at hid
    dsimp only
    rw [hid.1, hid.2.1]
    exact h.placed hi

/-- A part of the activation that keeps the identities stays on its course. -/
theorem Course.wp_keep {x : CacheM ι α} (h : Course pl r s addr installed t) (hx : Keeps (SameIds r) x)
    (hQ : ∀ a t', Course pl r s addr installed t' → Q a t') : wp x Q (fun _ _ => True) t :=
  (hx t).imp (fun a t' h' => hQ a t' (h.sameIds h')) fun _ _ _ => trivial

/-- The notification starts the course of the activation. -/
theorem wp_notifyVictim_course {Q : Unit → State ι → Prop} {isHit : Bool} (h : SameLinesAt r s t)
    (hfound : (s.cache r).find (pl.cfg r).geometry addr = (isHit, p))
    (hQ : ∀ t', Course pl r s addr false t' → Q () t') :
    wp (notifyVictim pl r isHit p) Q (fun _ _ => True) t := by
  have hcourse {t'} (hc : t'.cache = t.cache) (hn : t'.notified = told pl r s addr ++ t.notified) :
      Course pl r s addr false t' :=
    { notified := by rw [hn, h.notified]
      way := fun q => by rw [hc, h.way]
      other := fun q _ => by rw [hc, h.line]
      placed := fun hi => by cases hi }
  refine .step (wp_getLine_any ?_)
  rw [h.line]
  refine wp_runIf (fun hc => hQ _ (hcourse rfl ?_)) fun hc => hQ t (hcourse rfl ?_)
  · unfold told
    rw [hfound, if_pos hc]
    rfl
  · unfold told
    rw [hfound, if_neg hc]
    rfl

variable [DecidableEq ι]

theorem keeps_setState_sameIds (x : CoherenceState) : Keeps (SameIds r) (setState r p x) := by
  refine Keeps.modify fun s => ⟨rfl, fun q => ?_, fun q => ?_⟩
  · rw [State.modifyCache_cache, Cache.modifyLine_way_iff]
  · rw [State.modifyCache_cache, Cache.modifyLine_line]
    split
    · rename_i hq
      rw [hq]
      rfl
    · rfl

theorem keeps_dirSet_sameLines (a : ℕ) (e : DirectoryEntry) : Keeps (SameLinesAt r) (dirSet r a e) := by
  refine Keeps.modify fun s => ⟨rfl, fun q => ?_, fun q => ?_⟩
  · rw [State.modifyCache_cache]
    rfl
  · rw [State.modifyCache_cache]
    rfl

theorem keeps_sharersModify_sameIds (a : ℕ) (f : Finset ℕ → Finset ℕ) :
    Keeps (SameIds r) (sharersModify r a f) := by
  refine Keeps.modify fun s => ⟨rfl, fun q => ?_, fun q => ?_⟩
  · rw [State.modifyCache_cache]
    rfl
  · rw [State.modifyCache_cache]
    rfl

/-- The parts of the coherent functions keep the identities. -/
theorem keepsParts_sameIds {io : Ports ι} (hio : io.Keep (Apart r)) : KeepsParts (SameIds r) io r p where
  ports := hio.sameIds
  setState := keeps_setState_sameIds
  dirSet a e := (keeps_dirSet_sameLines a e).mono fun _ _ => SameLinesAt.sameIds
  emit _ := Keeps.modify fun _ => ⟨rfl, fun _ => Iff.rfl, fun _ => rfl⟩

/-- The lookup changes no line. -/
theorem wp_lookup_sameLines {Q : Bool × LineRef → State ι → Prop}
    (hQ : ∀ t, SameLinesAt r s t → Q ((s.cache r).find (pl.cfg r).geometry addr) t) :
    wp (lookup pl r addr) Q (fun _ _ => True) s := by
  refine wp_lookup_find (fun _ => trivial) fun f hf _ => hQ _ ⟨rfl, fun q => ?_, fun q => ?_⟩
  · rw [State.modifyCache_cache, hf.way_iff]
  · rw [State.modifyCache_cache, hf.line]

/-- The allocation installs the line of the access on a miss. -/
theorem Course.wp_allocate {Q : Unit → State ι → Prop} {isHit : Bool} {address handle : ℕ}
    (h : Course pl r s addr false t) (halloc : (pl.cfg r).allocPolicy = .wAllocate)
    (hfound : (s.cache r).find (pl.cfg r).geometry addr = (isHit, p))
    (haddress : (pl.cfg r).geometry.tag address = (pl.cfg r).geometry.tag addr)
    (hQ : ∀ t', Course pl r s addr (!isHit) t' → Q () t') :
    wp (allocate pl r isHit p address addr handle) Q (fun _ _ => True) t := by
  have hp : p = ((s.cache r).find (pl.cfg r).geometry addr).2 := by rw [hfound]
  refine wp_runIf (fun hc => hQ _ ?_) fun hc => hQ t ?_
  · refine ⟨h.notified, fun q => ?_, fun q hq => ?_, fun _ => ?_⟩
    · rw [State.modifyCache_cache, Cache.modifyLine_way_iff, h.way]
    · have hne : q ≠ p := by
        intro heq
        rw [hc.1] at hq
        exact absurd (hq (heq.trans hp)) (by decide)
      rw [State.modifyCache_cache, Cache.modifyLine_line, if_neg hne]
      exact h.other q fun _ => rfl
    · rw [State.modifyCache_cache, Cache.modifyLine_line, if_pos hp.symm]
      refine ⟨?_, haddress⟩
      change (pl.cfg r).geometry.tag addr % wordSize = (pl.cfg r).geometry.tag address % wordSize
      rw [haddress]
  · have hhit : isHit = true := by
      cases isHit with
      | true => rfl
      | false => exact absurd ⟨rfl, halloc⟩ hc
    rw [hhit]
    exact h

/-! ## The four access functions -/

variable {io : Ports ι} {data : DataPorts ι} {mode : CoherenceCommand} {size initiatorId handle : ℕ}

/-- Whether the call replaces what its lookup finds. -/
def installs (pl : Platform ι) (r : ι) (s : State ι) (f : AccessFunction) (mode : CoherenceCommand)
    (addr : ℕ) : Bool :=
  !((s.cache r).find (pl.cfg r).geometry addr).1 && decide (f.Allocates (pl.cfg r) mode)

omit [DecidableEq ι] in
theorem installs_eq_false (f : AccessFunction) (mode : CoherenceCommand) {isHit : Bool}
    (hfound : (s.cache r).find (pl.cfg r).geometry addr = (isHit, p))
    (h : isHit = true ∨ ¬ f.Allocates (pl.cfg r) mode) : installs pl r s f mode addr = false := by
  unfold installs
  rw [hfound]
  rcases h with h | h <;> simp [h]

omit [DecidableEq ι] in
theorem installs_eq_not (f : AccessFunction) (mode : CoherenceCommand) {isHit : Bool}
    (hfound : (s.cache r).find (pl.cfg r).geometry addr = (isHit, p))
    (h : isHit = false → f.Allocates (pl.cfg r) mode) : installs pl r s f mode addr = !isHit := by
  unfold installs
  rw [hfound]
  cases isHit with
  | true => rfl
  | false => simp [h rfl]

theorem accessNonCoherentLine_course (hio : data.Keep (Apart r))
    (halloc : (pl.cfg r).allocPolicy = .wAllocate) :
    wp (accessNonCoherentLine pl data r mode size addr initiatorId handle)
      (fun _ => Course pl r s addr (installs pl r s .nonCoherent mode addr)) (fun _ _ => True) s := by
  rcases hfound : (s.cache r).find (pl.cfg r).geometry addr with ⟨isHit, p⟩
  refine .step (wp_lookup_sameLines fun t ht => ?_)
  rw [hfound]
  refine .step (wp_getLine_any (.step (wp_check (.inr fun _ => trivial) (.step ?_))))
  refine wp_notifyVictim_course ht hfound fun t₁ h₁ => ?_
  unfold nonCoherentAt
  split
  · rename_i hmode
    rw [installs_eq_false .nonCoherent mode hfound (.inr fun h => h.1 hmode)]
    refine h₁.wp_keep ((keeps_nonCoherentInvalidate hio.sameIds fun _ => keeps_setState_sameIds _).bind
      fun _ => .pure _) fun _ _ h => h
  · split
    · rename_i hmode
      rw [installs_eq_false .nonCoherent mode hfound (.inr fun h => h.2.1 hmode)]
      exact h₁.wp_keep ((keeps_check _).bind fun _ => .pure _) fun _ _ h => h
    · split
      · rename_i hmiss
        rw [installs_eq_false .nonCoherent mode hfound (.inr fun h => h.2.2 hmiss.2)]
        refine h₁.wp_keep ((keeps_nonCoherentMissRead hio.sameIds keeps_sharersModify_sameIds).bind
          fun _ => .pure _) fun _ _ h => h
      · rename_i hinvalidate hreadBack hmiss
        rw [installs_eq_not .nonCoherent mode hfound fun hhit => ⟨hinvalidate, hreadBack, fun h => hmiss ⟨hhit, h⟩⟩]
        refine .step (wp_getLine_any (.step (wp_check (.inr fun _ => trivial) (.step ?_))))
        refine h₁.wp_keep (keeps_nonCoherentReplace hio.sameIds keeps_sharersModify_sameIds
          fun _ => keeps_setState_sameIds _) fun _ t₂ h₂ => .step ?_
        refine h₂.wp_allocate halloc hfound (Geometry.tag_lineBase _) fun t₃ h₃ => ?_
        refine h₃.wp_keep ((keeps_getLine p).bind fun _ => (keeps_check _).bind fun _ =>
          (keeps_nonCoherentServe hio.sameIds keeps_sharersModify_sameIds
            fun _ => keeps_setState_sameIds).bind fun _ => .pure _) fun _ _ h => h

theorem accessCpuLine_course (hio : io.Keep (Apart r)) (halloc : (pl.cfg r).allocPolicy = .wAllocate) :
    wp (accessCpuLine pl io r mode size addr initiatorId handle)
      (fun _ => Course pl r s addr (installs pl r s .cpu mode addr)) (fun _ _ => True) s := by
  rcases hfound : (s.cache r).find (pl.cfg r).geometry addr with ⟨isHit, p⟩
  have hparts := keepsParts_sameIds (p := p) hio
  refine .step (wp_lookup_sameLines fun t ht => ?_)
  rw [hfound]
  refine .step (wp_notifyVictim_course ht hfound fun t₁ h₁ => .step (wp_getLine_any (.step ?_)))
  refine wp_check (.inr fun _ => trivial) ?_
  dsimp only
  split
  · rw [installs_eq_false .cpu .fwdGetS hfound (.inr fun h => h.1 rfl)]
    exact h₁.wp_keep (hparts.cpuFwdGetS.bind fun _ => .pure _) fun _ _ h => h
  · rw [installs_eq_false .cpu .fwdGetM hfound (.inr fun h => h.2.1 rfl)]
    exact h₁.wp_keep (hparts.cpuFwdGetM.bind fun _ => .pure _) fun _ _ h => h
  · rw [installs_eq_false .cpu .putI hfound (.inr fun h => h.2.2 rfl)]
    exact h₁.wp_keep (hparts.cpuPutI.bind fun _ => .pure _) fun _ _ h => h
  · rename_i hS hM hI
    rw [installs_eq_not .cpu mode hfound fun _ => ⟨hS, hM, hI⟩]
    refine .step (h₁.wp_keep (keeps_runIf fun _ => keeps_check _) fun _ t₂ h₂ => .step ?_)
    refine h₂.wp_keep hparts.cpuWriteBack fun _ t₃ h₃ => .step ?_
    refine h₃.wp_allocate halloc hfound (Geometry.tag_lineBase _) fun t₄ h₄ => ?_
    exact h₄.wp_keep ((keeps_getLine p).bind fun _ => (keeps_check _).bind fun _ =>
      hparts.cpuAllocating.bind fun _ => .pure _) fun _ _ h => h

omit [DecidableEq ι] in
/-- A check before the notification, which may insert a directory entry, leaves the lines. -/
theorem SameLinesAt.wp_keep {x : CacheM ι α} (h : SameLinesAt r s t) (hx : Keeps (SameLinesAt r) x)
    (hQ : ∀ a t', SameLinesAt r s t' → Q a t') : wp x Q (fun _ _ => True) t :=
  (hx.wp_of_rel h).imp (fun a t' h' => hQ a t' h') fun _ _ _ => trivial

theorem accessL2Cache_course (hio : io.Keep (Apart r)) (halloc : (pl.cfg r).allocPolicy = .wAllocate) :
    wp (accessL2Cache pl io r mode size addr initiatorId handle)
      (fun _ => Course pl r s addr (installs pl r s .l2 mode addr)) (fun _ _ => True) s := by
  rcases hfound : (s.cache r).find (pl.cfg r).geometry addr with ⟨isHit, p⟩
  have hparts := keepsParts_sameIds (p := p) hio
  refine .step (wp_lookup_sameLines fun t ht => ?_)
  rw [hfound]
  refine .step (wp_getLine_any ?_)
  refine .step (wp_check (.inr fun _ => trivial) (.step (wp_check (.inr fun _ => trivial) ?_)))
  refine .step (wp_check (.inr fun _ => trivial) (.step (wp_check (.inr fun _ => trivial) (.step ?_))))
  refine ht.wp_keep (keeps_runIf fun _ => keeps_checkDir keeps_dirSet_sameLines _ _) fun _ t₁ ht₁ => .step ?_
  refine wp_notifyVictim_course ht₁ hfound fun t₂ h₂ => ?_
  split
  · rw [installs_eq_false .l2 .fwdGetS hfound (.inr fun h => h.1 rfl)]
    exact h₂.wp_keep hparts.l2FwdGetS fun _ _ h => h
  · rw [installs_eq_false .l2 .fwdGetM hfound (.inr fun h => h.2.1 rfl)]
    exact h₂.wp_keep hparts.l2FwdGetM fun _ _ h => h
  · rw [installs_eq_false .l2 .putS hfound (.inr fun h => h.2.2.1 rfl)]
    exact h₂.wp_keep hparts.l2PutS fun _ _ h => h
  · rw [installs_eq_false .l2 .putI hfound (.inr fun h => h.2.2.2 rfl)]
    exact h₂.wp_keep hparts.l2PutI fun _ _ h => h
  · rename_i hS hM hPutS hPutI
    rw [installs_eq_not .l2 mode hfound fun _ => ⟨hS, hM, hPutS, hPutI⟩]
    refine .step (h₂.wp_keep hparts.l2WriteBack fun _ t₃ h₃ => .step ?_)
    refine h₃.wp_allocate halloc hfound rfl fun t₄ h₄ => ?_
    exact h₄.wp_keep hparts.l2Allocating fun _ _ h => h

theorem accessCoherentHome_course (hio : io.Keep (Apart r))
    (halloc : (pl.cfg r).allocPolicy = .wAllocate) :
    wp (accessCoherentHome pl io r mode size addr initiatorId handle)
      (fun _ => Course pl r s addr (installs pl r s .home mode addr)) (fun _ _ => True) s := by
  rcases hfound : (s.cache r).find (pl.cfg r).geometry addr with ⟨isHit, p⟩
  have hparts := keepsParts_sameIds (p := p) hio
  refine .step (wp_lookup_sameLines fun t ht => ?_)
  rw [hfound]
  refine .step (wp_getLine_any (.step (ht.wp_keep (keeps_dirFind _) fun _ t₁ ht₁ => .step ?_)))
  refine ht₁.wp_keep (Keeps.modify fun _ => ⟨rfl, fun _ => Iff.rfl, fun _ => rfl⟩) fun _ t₂ ht₂ => ?_
  refine .step (wp_check (.inr fun _ => trivial) (.step (wp_check (.inr fun _ => trivial) ?_)))
  refine .step (wp_check (.inr fun _ => trivial) (.step (wp_check (.inr fun _ => trivial) ?_)))
  refine .step (wp_check (.inr fun _ => trivial) (.step ?_))
  refine ht₂.wp_keep (keeps_runIf fun _ => keeps_checkDir keeps_dirSet_sameLines _ _) fun _ t₃ ht₃ => .step ?_
  refine wp_notifyVictim_course ht₃ hfound fun t₄ h₄ => ?_
  split
  · rename_i hmiss
    rw [installs_eq_false .home mode hfound (.inr fun h => h ⟨hmiss.1, .inl hmiss.2.2⟩)]
    exact h₄.wp_keep hparts.homeMissGetS fun _ _ h => h
  · split
    · rename_i hmiss
      rw [installs_eq_false .home mode hfound (.inr fun h => h ⟨hmiss.1, .inr hmiss.2.2⟩)]
      exact h₄.wp_keep hparts.homeMissGetM fun _ _ h => h
    · rename_i hS hM
      rw [installs_eq_not .home mode hfound fun hhit => fun h => h.2.elim
        (fun hmode => hS ⟨h.1, hhit, hmode⟩) fun hmode => hM ⟨h.1, hhit, hmode⟩]
      refine .step (h₄.wp_keep (keeps_getLine p) fun _ t₅ h₅ => .step ?_)
      refine h₅.wp_keep (keeps_runIf fun _ => hparts.ports.forwardWriteData _) fun _ t₆ h₆ => .step ?_
      refine h₆.wp_allocate halloc hfound rfl fun t₇ h₇ => ?_
      exact h₇.wp_keep ((keeps_getLine p).bind fun _ => (keeps_check _).bind fun _ =>
        hparts.homeAllocating) fun _ _ h => h

/-- One activation of any of the functions ends on its course. -/
theorem activation_course (hio : io.Keep (Apart r)) (hdata : data.Keep (Apart r))
    (halloc : (pl.cfg r).allocPolicy = .wAllocate) (x : Call) :
    wp (x.activation pl io data r)
      (fun _ => Course pl r s x.access.addr (installs pl r s x.function x.access.mode x.access.addr))
      (fun _ _ => True) s := by
  obtain ⟨f, a⟩ := x
  cases f with
  | nonCoherent => exact accessNonCoherentLine_course hdata halloc
  | cpu => exact accessCpuLine_course hio halloc
  | l2 => exact .bind (accessL2Cache_course hio halloc) fun _ _ h => h
  | home => exact .bind (accessCoherentHome_course hio halloc) fun _ _ h => h

/-! ## Notifications and replacements -/

/-- The valid line at `q` has been replaced. -/
def Removes (r : ι) (s s' : State ι) (q : LineRef) : Prop :=
  (s.cache r).Way q ∧ ((s.cache r).line q).Valid ∧
    ((s'.cache r).line q).address ≠ ((s.cache r).line q).address

/-- The new notifications are the handles of the lines that have been replaced, each once. -/
def NotifiesRemoved (r : ι) (s s' : State ι) : Prop :=
  ∃ qs : List LineRef, qs.Nodup ∧ (∀ q, q ∈ qs ↔ Removes r s s' q) ∧
    s'.notified = qs.map (fun q => ((s.cache r).line q).handle) ++ s.notified

/-- On a miss the victim is shared only if the command allocates, and modified only if it does not. -/
def VictimFits (pl : Platform ι) (r : ι) (s : State ι) (x : Call) : Prop :=
  let found := (s.cache r).find (pl.cfg r).geometry x.access.addr
  let allocates := x.function.Allocates (pl.cfg r) x.access.mode
  found.1 = false → (((s.cache r).line found.2).state = .shared → allocates) ∧
    (((s.cache r).line found.2).state = .modified → ¬ allocates)

/-- Every line stands under the tag of its address. -/
def TagSound (pl : Platform ι) (r : ι) (s : State ι) : Prop :=
  ∀ q, ((s.cache r).line q).tag = (pl.cfg r).geometry.tag ((s.cache r).line q).address % wordSize

omit [DecidableEq ι] in
/-- An activation keeps the tags sound. -/
theorem Course.tagSound (h : Course pl r s addr installed t) (hs : TagSound pl r s) : TagSound pl r t := by
  intro q
  by_cases hq : q = ((s.cache r).find (pl.cfg r).geometry addr).2 → installed = false
  · have hid := h.other q hq
    simp only [CacheLine.identity, Prod.mk.injEq] at hid
    rw [hid.1, hid.2.1]
    exact hs q
  · obtain ⟨rfl, hi⟩ := Classical.not_imp.1 hq
    exact (h.placed (by simpa using hi)).1

omit [DecidableEq ι] in
/-- On a miss the line that is found does not have the tag of the address. -/
theorem TagSound.tag_ne (hs : TagSound pl r s)
    (hfound : (s.cache r).find (pl.cfg r).geometry addr = (false, p)) (hv : ((s.cache r).line p).Valid) :
    (pl.cfg r).geometry.tag ((s.cache r).line p).address ≠ (pl.cfg r).geometry.tag addr := by
  intro htag
  unfold Cache.find at hfound
  cases hl : ((s.cache r).sets ((pl.cfg r).geometry.index addr)).locateLineInSet
      ((pl.cfg r).geometry.tag addr % wordSize) with
  | some way =>
    rw [hl] at hfound
    cases hfound
  | none =>
    rw [hl] at hfound
    obtain rfl : _ = p := congrArg Prod.snd hfound
    refine CacheSet.findWay_eq_none hl (CacheSet.victim_lt _) ⟨?_, hv⟩
    rw [← htag]
    exact hs ⟨_, _⟩

omit [DecidableEq ι] in
/-- An activation whose victim fits notifies exactly the replacements. -/
theorem Course.notifiesRemoved {x : Call}
    (h : Course pl r s x.access.addr (installs pl r s x.function x.access.mode x.access.addr) t)
    (hs : TagSound pl r s) (hnotify : (pl.cfg r).notifyEvictions = true) (hx : VictimFits pl r s x) :
    NotifiesRemoved r s t := by
  rcases hfound : (s.cache r).find (pl.cfg r).geometry x.access.addr with ⟨isHit, p⟩
  have hway : (s.cache r).Way p := by
    have := ((s.cache r).find_way (pl.cfg r).geometry x.access.addr).1
    rwa [hfound] at this
  have hstay (hinst : installs pl r s x.function x.access.mode x.access.addr = false) (q : LineRef) :
      ¬ Removes r s t q := by
    rintro ⟨-, -, hne⟩
    have hid := h.other q fun _ => hinst
    simp only [CacheLine.identity, Prod.mk.injEq] at hid
    exact hne hid.1
  have hnone (htold : told pl r s x.access.addr = []) (hrem : ∀ q, ¬ Removes r s t q) :
      NotifiesRemoved r s t :=
    ⟨[], List.nodup_nil, fun q => by simp [hrem q], by rw [h.notified, htold]; rfl⟩
  cases isHit with
  | true =>
    refine hnone ?_ (hstay (installs_eq_false _ _ hfound (.inl rfl)))
    unfold told
    rw [hfound]
    simp
  | false =>
    unfold VictimFits at hx
    rw [hfound] at hx
    obtain ⟨hshared, hmodified⟩ := hx rfl
    by_cases hst : ((s.cache r).line p).state = .shared
    · have hinst := installs_eq_not x.function x.access.mode hfound fun _ => hshared hst
      rw [hinst] at h
      have htold : told pl r s x.access.addr = [((s.cache r).line p).handle] := by
        unfold told
        rw [hfound]
        exact if_pos ⟨rfl, hst, hnotify⟩
      refine ⟨[p], List.nodup_singleton p, fun q => ?_, by rw [h.notified, htold]; rfl⟩
      rw [List.mem_singleton]
      constructor
      · rintro rfl
        have hvalid : ((s.cache r).line q).Valid := by
          rw [CacheLine.Valid, hst]
          decide
        have hplaced := (h.placed rfl).2
        rw [hfound] at hplaced
        refine ⟨hway, hvalid, fun heq => hs.tag_ne hfound hvalid ?_⟩
        rw [← heq]
        exact hplaced
      · rintro ⟨-, -, hne⟩
        by_contra hq
        have hid := h.other q fun heq => absurd (heq.trans (by rw [hfound])) hq
        simp only [CacheLine.identity, Prod.mk.injEq] at hid
        exact hne hid.1
    · have htold : told pl r s x.access.addr = [] := by
        unfold told
        rw [hfound]
        exact if_neg fun hc => hst hc.2.1
      by_cases hm : ((s.cache r).line p).state = .modified
      · exact hnone htold (hstay (installs_eq_false _ _ hfound (.inr (hmodified hm))))
      · -- the victim was not valid, so nothing has been removed
        refine hnone htold fun q hremoves => ?_
        obtain ⟨-, hv, hne⟩ := hremoves
        have hqp : q ≠ p := by
          rintro rfl
          cases hcase : ((s.cache r).line q).state with
          | modified => exact hm hcase
          | shared => exact hst hcase
          | invalid => exact hv hcase
        have hid := h.other q fun heq => absurd (heq.trans (by rw [hfound])) hqp
        simp only [CacheLine.identity, Prod.mk.injEq] at hid
        exact hne hid.1

omit [DecidableEq ι] in
/-- The tags of an empty cache are sound. -/
theorem tagSound_init : TagSound pl r (.init pl) := by
  intro q
  change 0 = (pl.cfg r).geometry.tag 0 % wordSize
  rw [Nat.le_zero.1 (Geometry.tag_le 0)]
  rfl

/-! ## Runs -/

/-- Every activation of a run meets the condition in the state from which it starts. -/
def EachActivation (pl : Platform ι) (io : Ports ι) (data : DataPorts ι) (r : ι) (fuel : ℕ)
    (cond : State ι → Call → Prop) (s : State ι) (xs : List Call) : Prop :=
  Along (Call.perform pl io data r fuel)
    (fun s x => Rounds (Call.line pl io data r) cond (fuel + 1) s x) s xs

/-- In every run whose activations find victims that fit, each activation that completes notifies
the lines it replaces, each once, and no other. -/
theorem removed_lines_notified (fuel : ℕ) (hio : io.Keep (Apart r)) (hdata : data.Keep (Apart r))
    (halloc : (pl.cfg r).allocPolicy = .wAllocate) (hnotify : (pl.cfg r).notifyEvictions = true)
    {xs : List Call} (hx : EachActivation pl io data r fuel (VictimFits pl r) (.init pl) xs) :
    EachActivation pl io data r fuel
      (fun s x => ∀ n s', x.activation pl io data r s = .ok n s' → NotifiesRemoved r s s')
      (.init pl) xs := by
  have hline {s s' : State ι} {x : Call} {y : Option Call} (hs : TagSound pl r s)
      (hrun : x.line pl io data r s = .ok y s') : TagSound pl r s' := by
    refine wp.of_ok (Q := fun _ => TagSound pl r) (E := fun _ _ => True) ?_ hrun
    refine .bind ((activation_course hio hdata halloc x).mono fun _ t h => h.tagSound hs) fun _ _ h => h
  refine hx.imp (TagSound pl r) (fun s x s' hs hr hrun => ?_) (fun s x hs hr => ?_) tagSound_init
  · refine wp.of_ok (Q := fun _ => TagSound pl r) (E := fun _ _ => True) ?_ hrun
    rw [Call.perform_eq_loop]
    refine hr.wp_loop (fun t y ht _ => ?_) (fun _ _ => trivial) hs
    exact .bind ((activation_course hio hdata halloc y).mono fun _ _ h => h.tagSound ht) fun _ _ h => h
  · refine hr.imp (TagSound pl r) (fun t y _ t' ht _ hrun => hline ht hrun) (fun t y ht hy n t' hrun => ?_) hs
    exact ((activation_course hio hdata halloc y).of_ok hrun).notifiesRemoved ht hnotify hy

end

/-- Coherence traffic that nobody answers. -/
def silentPorts {ι : Type} : Ports ι where
  socketOut0 _ := pure ()
  socketOut1 _ := pure ()
  forwardReadData _ := pure ()
  forwardWriteData _ := pure ()
  forwardEvict _ := pure ()

/-- A cache of one line with a notifier. -/
def noticedLine : CacheConfig := { oneLine .nine with notifyEvictions := true }

/-- Two reads, of which the second replaces the line of the first. -/
def twoReads : List Call :=
  [⟨.nonCoherent, { mode := .read, size := 8, addr := 0, handle := 7 }⟩,
    ⟨.nonCoherent, { mode := .read, size := 8, addr := 64, handle := 8 }⟩]

instance {ι : Type} (pl : Platform ι) (r : ι) (s : State ι) (x : Call) :
    Decidable (VictimFits pl r s x) := by
  unfold VictimFits
  infer_instance

/-- The line of the first read is notified. -/
theorem removed_lines_notified_twoReads :
    EachActivation (.single noticedLine) silentPorts sinkPorts () 0
      (fun s x => ∀ n s', x.activation (.single noticedLine) silentPorts sinkPorts () s = .ok n s' →
        NotifiesRemoved () s s') (.init (.single noticedLine)) twoReads := by
  refine removed_lines_notified 0 ?_ ?_ rfl rfl ?_
  · exact ⟨fun _ _ => ⟨rfl, rfl⟩, fun _ _ => ⟨rfl, rfl⟩, fun _ _ => ⟨rfl, rfl⟩, fun _ _ => ⟨rfl, rfl⟩,
      fun _ _ => ⟨rfl, rfl⟩⟩
  · exact ⟨fun _ _ _ => ⟨rfl, rfl⟩, fun _ _ _ => ⟨rfl, rfl⟩, fun _ _ _ => ⟨rfl, rfl⟩, fun _ _ _ => ⟨rfl, rfl⟩,
      fun _ _ _ _ => ⟨rfl, rfl⟩⟩
  · refine .cons (.last (by decide +kernel) (by decide +kernel)) ?_
    exact .cons (.last (by decide +kernel) (by decide +kernel)) trivial

/-- The write of a line, and the write of another that takes its place. -/
def writeNoticed : Call := ⟨.nonCoherent, { mode := .write, size := 8, addr := 0, handle := 7 }⟩

@[inherit_doc writeNoticed] def replaceNoticed : Call :=
  ⟨.nonCoherent, { mode := .write, size := 8, addr := 64, handle := 8 }⟩

/-- A modified line is replaced without a notification. -/
theorem modified_line_not_notified : ¬ ∀ cfg : CacheConfig, cfg.allocPolicy = .wAllocate →
    cfg.notifyEvictions = true → ∀ (fuel : ℕ) (xs : List Call),
      EachActivation (.single cfg) silentPorts sinkPorts () fuel
        (fun s x => ∀ n s', x.activation (.single cfg) silentPorts sinkPorts () s = .ok n s' →
          NotifiesRemoved () s s') (.init (.single cfg)) xs := by
  intro hclaim
  have hrun := hclaim noticedLine rfl rfl 0 [writeNoticed, replaceNoticed]
  have hwrite := eq_ok_endState (r := writeNoticed.perform (.single noticedLine) silentPorts sinkPorts () 0
    (.init (.single noticedLine))) (by decide +kernel)
  obtain ⟨n, hreplace⟩ := exists_ok_endState (r := replaceNoticed.activation (.single noticedLine)
    silentPorts sinkPorts () (endState (writeNoticed.perform (.single noticedLine) silentPorts sinkPorts ()
      0 (.init (.single noticedLine))))) (by decide +kernel)
  obtain ⟨qs, -, hmem, hnotified⟩ := (hrun.2 _ hwrite).1.1 n _ hreplace
  have hempty : qs = [] := by
    have hlength := congrArg List.length hnotified
    rw [List.length_append, List.length_map] at hlength
    refine List.eq_nil_of_length_eq_zero (Nat.eq_zero_of_le_zero (le_trans (Nat.le_add_right _ _) hlength.ge |>.trans ?_))
    decide +kernel
  have hremoved := (hmem ⟨0, 0⟩).2 ⟨by decide +kernel, by decide +kernel, by decide +kernel⟩
  rw [hempty] at hremoved
  cases hremoved


end Vpsim.Memory
