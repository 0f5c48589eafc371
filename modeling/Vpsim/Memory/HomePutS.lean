import Vpsim.Memory.EvictionNotice

/-!
# The release of a shared line at a home

`PutS` in `accessCoherentHome`, for a home that does not exclude the lines of the upper caches. The
replacement that comes before the switch over the commands is shared by all of them, so a release
that misses replaces a line, although it needs none.
-/

namespace Vpsim.Memory

open Vpsim.Lib

/-- The directory entry that a release leaves, given the one it finds. -/
def putSEntry (initiatorId : ℕ) : Option DirectoryEntry → DirectoryEntry
  | none => .default
  | some e =>
    if e.state = .shared then
      if (e.eraseSharer initiatorId).sharers.card = 0 then .uncached else e.eraseSharer initiatorId
    else e

section

variable {ι : Type} (pl : Platform ι) (r : ι)

/-- The lines that the cache holds are the same, and of the directory at most the entry of `addr`
has changed. -/
structure OnlyEntry (addr : ℕ) (s t : State ι) : Prop where
  line : ∀ q, (s.cache r).Way q → ((s.cache r).line q).Valid →
    ((t.cache r).line q).address = ((s.cache r).line q).address ∧
      ((t.cache r).line q).tag = ((s.cache r).line q).tag ∧
      ((t.cache r).line q).state = ((s.cache r).line q).state
  directory : ∀ b ≠ addr, (t.cache r).directory b = (s.cache r).directory b

/-- The address whose entry a request works on: that of the line found, or the requested one if the
request allocates. -/
def servedAddress (s : State ι) (addr : ℕ) : ℕ :=
  let found := (s.cache r).find (pl.cfg r).geometry addr
  if found.1 = false ∧ (pl.cfg r).allocPolicy = .wAllocate then addr
  else ((s.cache r).line found.2).address

/-- The request finds its line, or replaces none: a miss of a cache that allocates has a victim
that is not valid. The entry it works on is its own, or one that the release does not change. -/
def ReleasesInPlace (s : State ι) (addr initiatorId : ℕ) : Prop :=
  let found := (s.cache r).find (pl.cfg r).geometry addr
  let entry := (s.cache r).directory (servedAddress pl r s addr)
  (found.1 = false → (pl.cfg r).allocPolicy = .wAllocate → ¬ ((s.cache r).line found.2).Valid) ∧
    (servedAddress pl r s addr = addr ∨ entry = some (putSEntry initiatorId entry))

instance (s : State ι) (addr initiatorId : ℕ) : Decidable (ReleasesInPlace pl r s addr initiatorId) := by
  unfold ReleasesInPlace
  infer_instance

/-- What a release does to a cache: a miss that allocates places the new line, and the entry it
works on is updated. Nothing is said about the entry of `addr`. -/
structure Released (s : State ι) (addr initiatorId handle : ℕ) (t : State ι) : Prop where
  line : ∀ q, (t.cache r).line q =
    let found := (s.cache r).find (pl.cfg r).geometry addr
    if q = found.2 ∧ found.1 = false ∧ (pl.cfg r).allocPolicy = .wAllocate then
      ((s.cache r).line q).setNewLine addr ((pl.cfg r).geometry.tag addr) handle
    else (s.cache r).line q
  directory : ∀ b ≠ addr, (t.cache r).directory b =
    if b = servedAddress pl r s addr then some (putSEntry initiatorId ((s.cache r).directory b))
    else (s.cache r).directory b

variable {pl r} {s t : State ι} {addr initiatorId handle : ℕ}

/-- A release leaves the lines and the other entries alone exactly when it replaces no valid line
and works on its own entry. -/
theorem Released.onlyEntry_iff (h : Released pl r s addr initiatorId handle t) :
    OnlyEntry r addr s t ↔ ReleasesInPlace pl r s addr initiatorId := by
  constructor
  · intro honly
    constructor
    · intro hmiss halloc hvalid
      have hkept := (honly.line _ (Cache.find_way _ _ _).1 hvalid).2.2
      rw [h.line, if_pos ⟨rfl, hmiss, halloc⟩] at hkept
      exact hvalid hkept.symm
    · by_cases haddr : servedAddress pl r s addr = addr
      · exact .inl haddr
      · have hkept := honly.directory _ haddr
        rw [h.directory _ haddr, if_pos rfl] at hkept
        exact .inr hkept.symm
  · intro ⟨hvictim, hentry⟩
    refine ⟨fun q _ hvalid => ?_, fun b hb => ?_⟩
    · rw [h.line]
      dsimp only
      rw [if_neg]
      · exact ⟨rfl, rfl, rfl⟩
      · intro ⟨hq, hmiss, halloc⟩
        rw [hq] at hvalid
        exact hvictim hmiss halloc hvalid
    · rw [h.directory b hb]
      split
      · rename_i hserved
        rw [hserved]
        rw [hserved] at hb
        exact (hentry.resolve_left hb).symm
      · rfl

/-! ## The directory part -/

/-- The sets are those of `s`, and so is the directory but for the entry of `a`, which is `x`. -/
structure EntryIs (r : ι) (s : State ι) (a : ℕ) (x : Option DirectoryEntry) (t : State ι) : Prop where
  line : ∀ q, (t.cache r).line q = (s.cache r).line q
  directory : ∀ b, (t.cache r).directory b = if b = a then x else (s.cache r).directory b

variable {a : ℕ} {x : Option DirectoryEntry} {e : DirectoryEntry}

/-- Nothing has changed yet. -/
theorem EntryIs.refl : EntryIs r s a ((s.cache r).directory a) s := by
  refine ⟨fun _ => rfl, fun b => ?_⟩
  split
  · rename_i hb
    rw [hb]
  · rfl

theorem EntryIs.entry (h : EntryIs r s a x t) : (t.cache r).directory a = x :=
  (h.directory a).trans (if_pos rfl)

variable [DecidableEq ι]

/-- The entry is written. -/
theorem wp_dirSet_entry {Q : Unit → State ι → Prop} (h : EntryIs r s a x t)
    (hQ : ∀ t', EntryIs r s a (some e) t' → Q () t') : wp (dirSet r a e) Q (fun _ _ => True) t := by
  refine hQ _ ⟨fun q => ?_, fun b => ?_⟩
  · rw [State.modifyCache_cache]
    exact h.line q
  · rw [State.modifyCache_cache]
    dsimp only
    by_cases hb : b = a
    · rw [hb, Function.update_self, if_pos rfl]
    · rw [Function.update_of_ne hb, h.directory, if_neg hb, if_neg hb]

/-- The entry is read, and made if it is absent. -/
theorem wp_dirAt_entry {Q : DirectoryEntry → State ι → Prop} (h : EntryIs r s a x t)
    (hQ : ∀ t', EntryIs r s a (some (x.getD .default)) t' → Q (x.getD .default) t') :
    wp (dirAt r a) Q (fun _ _ => True) t := by
  -- the entry is found in the state itself
  have hfind : wp (dirFind r a) (fun found t' => found = x ∧ t' = t) (fun _ _ => True) t := ⟨h.entry, rfl⟩
  apply hfind.bind
  intro found t' ⟨hfound, ht⟩
  rw [hfound, ht]
  cases x with
  | none => exact .step (wp_dirSet_entry h hQ)
  | some e => exact hQ t h

/-- An assertion on an entry that is present leaves the entry. -/
theorem wp_checkDir_entry {Q : Unit → State ι → Prop} {c : DirectoryEntry → Prop} [DecidablePred c]
    (h : EntryIs r s a (some e) t) (hQ : ∀ t', EntryIs r s a (some e) t' → Q () t') :
    wp (checkDir pl r a c) Q (fun _ _ => True) t := by
  refine wp_runIf (fun _ => ?_) fun _ => hQ t h
  exact .step (wp_dirAt_entry h fun t' h' => wp_check (.inr fun _ => trivial) (hQ t' h'))

/-- A release at a home that does not exclude the lines of the upper caches touches one entry. -/
theorem homePutS_entry (hcfg : (pl.cfg r).inclusionOfHigher ≠ .exclusive) (isHit : Bool) (p : LineRef)
    (ha : ((s.cache r).line p).address = a) :
    wp (homePutS pl r isHit p initiatorId)
      (fun _ => EntryIs r s a (some (putSEntry initiatorId ((s.cache r).directory a)))) (fun _ _ => True) s := by
  have hstart : EntryIs r s a ((s.cache r).directory a) s := .refl
  generalize hx : (s.cache r).directory a = x at hstart
  have hfound {c : DirectoryEntry → Prop} [DecidablePred c] {Q : Unit → State ι → Prop}
      (hQ : ∀ t y, y.getD .default = x.getD .default → EntryIs r s a y t → Q () t) :
      wp (checkDir pl r a c) Q (fun _ _ => True) s := by
    refine wp_runIf (fun _ => ?_) fun _ => hQ s x rfl hstart
    refine .step (wp_dirAt_entry hstart fun t' h' => wp_check (.inr fun _ => trivial) ?_)
    exact hQ t' (some (x.getD .default)) rfl h'
  have hlast {e : DirectoryEntry} {t : State ι} (h : EntryIs r s a (some e) t) :
      wp (do
        checkDir pl r a fun e => e.state ≠ .modified
        checkDir pl r a fun e => e.owner = nullIdx) (fun _ => EntryIs r s a (some e)) (fun _ _ => True) t :=
    .step (wp_checkDir_entry h fun t' h' => wp_checkDir_entry h' fun _ h'' => h'')
  unfold homePutS
  refine .step (wp_getLine_any ?_)
  rw [ha]
  refine .step (.step (wp_check (.inr fun _ => trivial) (.step (hfound fun t y hy ht => .step ?_))))
  refine wp_dirAt_entry ht fun t ht => ?_
  rw [hy] at ht ⊢
  have hother (hne : (x.getD .default).state ≠ .shared) :
      EntryIs r s a (some (putSEntry initiatorId x)) t := by
    cases x with
    | none => exact ht
    | some e =>
      rw [show putSEntry initiatorId (some e) = e from if_neg hne]
      exact ht
  cases hst : (x.getD .default).state with
  | invalid =>
    refine .step (wp_check (.inr fun _ => trivial) (.step ?_))
    exact wp_checkDir_entry (hother (by simp [hst])) fun t' h' => hlast h'
  | modified =>
    refine .step (wp_check (.inr fun _ => trivial) (.step ?_))
    exact wp_checkDir_entry (hother (by simp [hst])) fun t' h' => hlast h'
  | shared =>
    cases x with
    | none => cases hst
    | some e =>
      refine .step (wp_check (.inr fun _ => trivial) (.step (wp_check (.inr fun _ => trivial) (.step ?_))))
      refine wp_check (.inr fun _ => trivial) (.step (.step (wp_dirAt_entry ht fun t ht => ?_)))
      refine wp_dirSet_entry ht fun t ht => .step (wp_dirAt_entry ht fun t ht => .step ?_)
      refine wp_runIf (fun hcard => .step ?_) fun hcard => ?_
      · refine wp_dirSet_entry ht fun t ht => wp_runIf_neg hcfg ?_
        rw [show putSEntry initiatorId (some e) = .uncached from (if_pos hst).trans (if_pos hcard)]
        exact hlast ht
      · rw [show putSEntry initiatorId (some e) = e.eraseSharer initiatorId from
          (if_pos hst).trans (if_neg hcard)]
        exact hlast ht

/-! ## The whole access -/

/-- The memory below a home does not touch its cache. -/
def SameCache (r : ι) (s t : State ι) : Prop := t.cache r = s.cache r

omit [DecidableEq ι] in
/-- A state with the same cache has the same entry. -/
theorem EntryIs.sameCache {t' : State ι} (h : EntryIs r s a x t) (hc : SameCache r t t') : EntryIs r s a x t' := by
  refine ⟨fun q => ?_, fun b => ?_⟩
  · rw [hc]
    exact h.line q
  · rw [hc]
    exact h.directory b

/-- An assertion on an entry leaves the cache but for this entry, which may be made by it. -/
theorem wp_checkDir_any {Q : Unit → State ι → Prop} {c : DirectoryEntry → Prop} [DecidablePred c]
    (h : EntryIs r s a x t) (hQ : ∀ t' y, EntryIs r s a y t' → Q () t') :
    wp (checkDir pl r a c) Q (fun _ _ => True) t := by
  refine wp_runIf (fun _ => ?_) fun _ => hQ t x h
  exact .step (wp_dirAt_entry h fun t' h' => wp_check (.inr fun _ => trivial) (hQ t' _ h'))

/-- The allocation, if there is one, replaces the line of the place. -/
theorem wp_allocate_line {Q : Unit → State ι → Prop} {E : Stop → State ι → Prop} {isHit : Bool} {p : LineRef}
    {address : ℕ}
    (hQ : ∀ t', (∀ q, (t'.cache r).line q =
        if q = p ∧ isHit = false ∧ (pl.cfg r).allocPolicy = .wAllocate then
          ((t.cache r).line q).setNewLine address ((pl.cfg r).geometry.tag addr) handle
        else (t.cache r).line q) → (t'.cache r).directory = (t.cache r).directory → Q () t') :
    wp (allocate pl r isHit p address addr handle) Q E t := by
  refine wp_runIf (fun hc => hQ _ (fun q => ?_) ?_) fun hc => hQ t (fun q => ?_) rfl
  · rw [State.modifyCache_cache, Cache.modifyLine_line]
    by_cases hq : q = p
    · rw [if_pos hq, if_pos ⟨hq, hc⟩, hq]
    · rw [if_neg hq, if_neg fun h => hq h.1]
  · rw [State.modifyCache_cache]
    rfl
  · rw [if_neg fun h => hc h.2]

omit [DecidableEq ι] in
/-- Looking an entry up returns it and leaves the state. -/
theorem wp_dirFind_any {Q : Option DirectoryEntry → State ι → Prop} {E : Stop → State ι → Prop}
    (hQ : Q ((t.cache r).directory a) t) : wp (dirFind r a) Q E t := hQ

omit [DecidableEq ι] in
/-- Recording an event leaves the entry. -/
theorem wp_emit_entry {Q : Unit → State ι → Prop} {event : Event} (h : EntryIs r s a x t)
    (hQ : ∀ t', EntryIs r s a x t' → Q () t') : wp (emit event) Q (fun _ _ => True) t :=
  hQ _ ⟨h.line, h.directory⟩

variable {isHit : Bool} {p : LineRef} {io : Ports ι}

/-- The replacement and the release itself, after a lookup that has found the place `p`. -/
theorem homeServe_released (hio : ∀ a, Keeps (SameCache r) (io.forwardWriteData a))
    (hcfg : (pl.cfg r).inclusionOfHigher ≠ .exclusive)
    (hfound : (s.cache r).find (pl.cfg r).geometry addr = (isHit, p)) (h : EntryIs r s addr x t) :
    wp (homeServe pl io r .putS isHit p addr initiatorId handle)
      (fun _ => Released pl r s addr initiatorId handle) (fun _ _ => True) t := by
  refine .step (wp_getLine_any (.step ?_))
  have hwriteBack : wp (runIf (isHit = false ∧ ((t.cache r).line p).state = .modified ∧
      (pl.cfg r).writePolicy = .wBack) (io.forwardWriteData ((t.cache r).line p).address))
      (fun _ => EntryIs r s addr x) (fun _ _ => True) t := by
    refine wp_runIf (fun _ => ?_) fun _ => h
    exact (hio _ t).imp (fun _ _ hc => h.sameCache hc) fun _ _ _ => trivial
  refine hwriteBack.mono fun _ t h => .step (wp_allocate_line fun t₁ hline hdir => ?_)
  have hserved : ((t₁.cache r).line p).address = servedAddress pl r s addr := by
    rw [hline, h.line]
    unfold servedAddress
    rw [hfound]
    by_cases hc : isHit = false ∧ (pl.cfg r).allocPolicy = .wAllocate
    · rw [if_pos ⟨rfl, hc⟩, if_pos hc]
      rfl
    · rw [if_neg fun h => hc h.2, if_neg hc]
  refine .step (wp_getLine_any (.step (wp_check (.inr fun _ => trivial) ?_)))
  refine .bind (homePutS_entry hcfg isHit p hserved) fun _ t₂ h₂ => ?_
  have hdone {y : Option DirectoryEntry} {t₃ : State ι} (h₃ : EntryIs r t₂ addr y t₃) :
      Released pl r s addr initiatorId handle t₃ := by
    refine ⟨fun q => ?_, fun b hb => ?_⟩
    · rw [h₃.line, h₂.line, hline, h.line, hfound]
    · rw [h₃.directory, if_neg hb, h₂.directory]
      split
      · rename_i hb'
        rw [← hb', hdir, h.directory, if_neg hb]
      · rw [hdir, h.directory, if_neg hb]
  refine .step (wp_getLine_any (.step ?_))
  refine wp_runIf (fun _ => ?_) fun _ => hdone .refl
  exact wp_checkDir_any .refl fun t₃ y h₃ => hdone h₃

/-- A release at a home that does not exclude the lines of the upper caches. -/
theorem accessCoherentHome_released (hio : ∀ a, Keeps (SameCache r) (io.forwardWriteData a))
    (hcfg : (pl.cfg r).inclusionOfHigher ≠ .exclusive) (size : ℕ) :
    wp (accessCoherentHome pl io r .putS size addr initiatorId handle)
      (fun _ => Released pl r s addr initiatorId handle) (fun _ _ => True) s := by
  rcases hfound : (s.cache r).find (pl.cfg r).geometry addr with ⟨isHit, p⟩
  refine .step (wp_lookup_find (fun _ => trivial) fun f hf _ => ?_)
  rw [hfound]
  have h : EntryIs r s addr ((s.cache r).directory addr) (s.modifyCache r f) := by
    refine ⟨fun q => ?_, fun b => ?_⟩
    · rw [State.modifyCache_cache]
      exact hf.line q
    · rw [State.modifyCache_cache, hf.directory]
      exact EntryIs.refl.directory b
  refine .step (wp_getLine_any (.step (wp_dirFind_any (.step (wp_emit_entry h fun t h => .step ?_)))))
  refine wp_check (.inr fun _ => trivial) (.step (wp_check (.inr fun _ => trivial) (.step ?_)))
  refine wp_check (.inr fun _ => trivial) (.step (wp_check (.inr fun _ => trivial) (.step ?_)))
  refine wp_check (.inr fun _ => trivial) (.step ?_)
  have hserve {y : Option DirectoryEntry} {t : State ι} (h : EntryIs r s addr y t) :
      wp (do
        notifyVictim pl r isHit p
        if (pl.cfg r).inclusionOfHigher = .exclusive ∧ isHit = false ∧ CoherenceCommand.putS = .getS then
          homeMissGetS pl io r addr initiatorId
        else if (pl.cfg r).inclusionOfHigher = .exclusive ∧ isHit = false ∧ CoherenceCommand.putS = .getM then
          homeMissGetM pl io r addr initiatorId
        else homeServe pl io r .putS isHit p addr initiatorId handle)
        (fun _ => Released pl r s addr initiatorId handle) (fun _ _ => True) t := by
    refine .step (wp_notifyVictim_beside fun t' hc _ => ?_)
    rw [if_neg fun hc => hcfg hc.1, if_neg fun hc => hcfg hc.1]
    exact homeServe_released hio hcfg hfound (h.sameCache (congrFun hc r))
  exact wp_runIf (fun _ => wp_checkDir_any h fun _ _ h' => hserve h') fun _ => hserve h

/-! ## Runs -/

/-- In a run from any state, every release that completes at a home which does not exclude the lines
of the upper caches leaves the lines and the other directory entries alone, exactly when each of these
releases replaces no valid line and works on its own entry. -/
theorem releases_only_entry_iff {data : DataPorts ι} {fuel : ℕ}
    (hio : ∀ a, Keeps (SameCache r) (io.forwardWriteData a))
    (hcfg : (pl.cfg r).inclusionOfHigher ≠ .exclusive) {xs : List Call} {u : State ι}
    (hrun : xs.forM (Call.perform pl io data r fuel) s = .ok ⟨⟩ u) :
    Along (Call.perform pl io data r fuel)
        (fun s x => x.function = .home → x.access.mode = .putS →
          ∀ t, x.perform pl io data r fuel s = .ok ⟨⟩ t → OnlyEntry r x.access.addr s t) s xs ↔
      Along (Call.perform pl io data r fuel)
        (fun s x => x.function = .home → x.access.mode = .putS →
          ReleasesInPlace pl r s x.access.addr x.access.initiatorId) s xs := by
  induction xs generalizing s with
  | nil => exact Iff.rfl
  | cons x xs ih =>
    obtain ⟨t, hx, hxs⟩ := forM_cons_ok hrun
    have hsame {s' : State ι} (hs' : x.perform pl io data r fuel s = .ok ⟨⟩ s') : s' = t := by
      rw [hx] at hs'
      cases hs'
      rfl
    have hfirst : x.function = .home → x.access.mode = .putS →
        (OnlyEntry r x.access.addr s t ↔ ReleasesInPlace pl r s x.access.addr x.access.initiatorId) := by
      intro hhome hput
      obtain ⟨f, a⟩ := x
      obtain rfl : f = .home := hhome
      change accessCoherentHome pl io r a.mode a.size a.addr a.initiatorId a.handle s = _ at hx
      rw [show a.mode = .putS from hput] at hx
      exact ((accessCoherentHome_released hio hcfg a.size).of_ok hx).onlyEntry_iff
    constructor
    · intro ⟨honly, hrest⟩
      refine ⟨fun hhome hput => (hfirst hhome hput).1 (honly hhome hput t hx), fun s' hs' => ?_⟩
      rw [hsame hs']
      exact (ih hxs).1 (hrest t hx)
    · intro ⟨hplace, hrest⟩
      refine ⟨fun hhome hput s' hs' => ?_, fun s' hs' => ?_⟩
      · rw [hsame hs']
        exact (hfirst hhome hput).2 (hplace hhome hput)
      · rw [hsame hs']
        exact (ih hxs).2 (hrest t hx)

end

/-- A request of an upper cache for the line `addr`. -/
def homeCall (mode : CoherenceCommand) (addr : ℕ) : Call :=
  ⟨.home, { mode := mode, size := 64, addr := addr, initiatorId := 1 }⟩

/-- A line is read and given back. -/
theorem releases_only_entry_hit :
    Along (Call.perform (.single (oneLine .nine)) silentPorts sinkPorts () 0)
      (fun s x => x.function = .home → x.access.mode = .putS →
        ∀ t, x.perform (.single (oneLine .nine)) silentPorts sinkPorts () 0 s = .ok ⟨⟩ t →
          OnlyEntry () x.access.addr s t) (.init (.single (oneLine .nine)))
      [homeCall .getS 0, homeCall .putS 0] := by
  have hio (a : ℕ) : Keeps (SameCache ()) ((silentPorts : Ports Unit).forwardWriteData a) := fun _ => rfl
  apply (releases_only_entry_iff hio (by decide) (eq_ok_endState (by decide +kernel))).2
  apply Along.cons (fun _ h => absurd h (by decide))
  exact .cons (fun _ _ => by decide +kernel) trivial

/-- The line of an upper cache has left the home before the upper cache gives it back. The release
takes the place of another line. -/
theorem release_replaces_line : ¬ ∀ cfg : CacheConfig, cfg.inclusionOfHigher ≠ .exclusive →
    ∀ xs : List Call, Along (Call.perform (.single cfg) silentPorts sinkPorts () 0)
      (fun s x => x.function = .home → x.access.mode = .putS →
        ∀ t, x.perform (.single cfg) silentPorts sinkPorts () 0 s = .ok ⟨⟩ t →
          OnlyEntry () x.access.addr s t) (.init (.single cfg)) xs := by
  intro hclaim
  have hrun := hclaim (oneLine .nine) (by decide) [homeCall .getS 0, homeCall .getS 64, homeCall .putS 0]
  have hfirst := eq_ok_endState (r := (homeCall .getS 0).perform (.single (oneLine .nine)) silentPorts
    sinkPorts () 0 (.init (.single (oneLine .nine)))) (by decide +kernel)
  have hsecond := eq_ok_endState (r := (homeCall .getS 64).perform (.single (oneLine .nine)) silentPorts
    sinkPorts () 0 (endState ((homeCall .getS 0).perform (.single (oneLine .nine)) silentPorts sinkPorts () 0
      (.init (.single (oneLine .nine)))))) (by decide +kernel)
  have hrelease := (((hrun.2 _ hfirst).2 _ hsecond).1 rfl rfl _ (eq_ok_endState (by decide +kernel))).line ⟨0, 0⟩
  exact absurd (hrelease (by decide +kernel) (by decide +kernel)).1 (by decide +kernel)

end Vpsim.Memory
