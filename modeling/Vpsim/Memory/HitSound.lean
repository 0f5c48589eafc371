import Vpsim.Memory.AccessKeeps
import Vpsim.Memory.DirtyLines

/-!
# Hits of a cache without coherence

A lookup compares the index and the tag of an address with what the cache stores, and the cache
stores 32 bits of a tag. A run whose line addresses are told apart by these has sound hits, if
it never marks the line of a miss as valid without having given it the new address.
-/

namespace Vpsim.Memory

open Vpsim.Lib

/-- A lookup of an address in `P` hits if and only if the cache holds a valid line with the base
address of its line, and no two ways of a set hold the same line. -/
structure Cache.HitSound (g : Geometry) (P : ℕ → Prop) (c : Cache) : Prop where
  hit_iff : ∀ addr, P (g.lineBase addr) →
    ((c.find g addr).1 = true ↔ ∃ x, x ≠ .invalid ∧ c.Holds g (g.lineBase addr) x)
  unique : ∀ p q, c.Way p → c.Way q → p.index = q.index → (c.line p).Valid → (c.line q).Valid →
    (c.line p).address = (c.line q).address → p = q

/-- The access is to a line in `P`. If it misses, the cache gives the line its address, or the line
has it, or no line is marked. -/
def Placed {ι : Type} (pl : Platform ι) (r : ι) (P : ℕ → Prop) (s : State ι) (x : Access) : Prop :=
  let cfg := pl.cfg r
  let g := cfg.geometry
  let found := (s.cache r).find g x.addr
  let line := (s.cache r).line found.2
  P (g.lineBase x.addr) ∧ (cfg.allocPolicy = .wAllocate ∨ found.1 = true ∨ cfg.PassesOn x.mode ∨
    (x.mode = .read ∧ cfg.inclusionOfHigher = .exclusive) ∨ x.mode = .invalidate ∨
    (line.address = g.lineBase x.addr ∧ line.tag = g.tag x.addr % wordSize))

section

variable {ι : Type} {pl : Platform ι} {r : ι} {P : ℕ → Prop} {s : State ι} {p : LineRef} {a : ℕ}

/-- A sound cache has sound hits. -/
theorem Cache.WF.hitSound {cfg : CacheConfig} {c : Cache} (h : c.WF cfg P)
    (hdistinct : Distinct cfg.geometry P) : c.HitSound cfg.geometry P where
  hit_iff addr hP := by
    have hfind := h.find hdistinct hP (Geometry.index_lineBase addr).symm (Geometry.tag_lineBase addr).symm
    have hplace := c.find_way cfg.geometry addr
    constructor
    · intro hhit
      rw [if_pos hhit] at hfind
      obtain ⟨ho, hvalid⟩ := hfind
      refine ⟨_, hvalid, (c.find cfg.geometry addr).2, ?_, ho.way, ho.address, ho.stateOf_eq.symm⟩
      rw [hplace.2]
      exact cfg.accepted.index_lt addr
    · rintro ⟨x, hx, q, -, hq, haddr, rfl⟩
      by_contra hmiss
      rw [if_neg hmiss, ← haddr, h.stateOf_line hq hx] at hfind
      exact hx hfind
  unique := h.unique

/-- The cache is sound and the place `p` carries the line `a`. -/
def Carries (pl : Platform ι) (r : ι) (P : ℕ → Prop) (p : LineRef) (a : ℕ) (s : State ι) : Prop :=
  (s.cache r).WF (pl.cfg r) P ∧ (s.cache r).Owns (pl.cfg r).geometry p a

/-- The cache is sound and does not have the line `a`; `p` is the place of a victim. -/
def Lacks (pl : Platform ι) (r : ι) (P : ℕ → Prop) (p : LineRef) (a : ℕ) (s : State ι) : Prop :=
  (s.cache r).WF (pl.cfg r) P ∧ (s.cache r).Way p ∧
    (s.cache r).stateOf (pl.cfg r).geometry a = .invalid

/-- Recorded transfers keep what only depends on the caches. -/
theorem sinkPorts_keep {I : State ι → Prop} (hI : ∀ s s' : State ι, s'.cache = s.cache → I s → I s') :
    (sinkPorts : DataPorts ι).Keep (Stays I) where
  forwardReadData _ _ := Keeps.modify fun s => hI s _ rfl
  forwardWriteData _ _ := Keeps.modify fun s => hI s _ rfl
  forwardEvict _ _ := Keeps.modify fun s => hI s _ rfl
  backInvalidate _ _ := Keeps.modify fun s => hI s _ rfl
  backwardRead _ _ _ := Keeps.modify fun s => hI s _ rfl

theorem sinkPorts_keep_carries : (sinkPorts : DataPorts ι).Keep (Stays (Carries pl r P p a)) :=
  sinkPorts_keep fun s s' hc h => by
    unfold Carries
    rw [hc]
    exact h

theorem sinkPorts_keep_lacks : (sinkPorts : DataPorts ι).Keep (Stays (Lacks pl r P p a)) :=
  sinkPorts_keep fun s s' hc h => by
    unfold Lacks
    rw [hc]
    exact h

variable [DecidableEq ι]

theorem Carries.sameLines {f : Cache → Cache} (h : Carries pl r P p a s)
    (hf : (s.cache r).SameLines (f (s.cache r))) : Carries pl r P p a (s.modifyCache r f) := by
  unfold Carries
  rw [State.modifyCache_cache]
  exact ⟨hf.wf h.1, hf.owns h.2⟩

theorem Lacks.sameLines {f : Cache → Cache} (h : Lacks pl r P p a s)
    (hf : (s.cache r).SameLines (f (s.cache r))) : Lacks pl r P p a (s.modifyCache r f) := by
  unfold Lacks
  rw [State.modifyCache_cache]
  exact ⟨hf.wf h.1, hf.way_iff.2 h.2.1, (hf.stateOf_eq a).trans h.2.2⟩

theorem keeps_sharersModify_carries (b : ℕ) (f : Finset ℕ → Finset ℕ) :
    Keeps (Stays (Carries pl r P p a)) (sharersModify r b f) :=
  Keeps.modify fun _ h => h.sameLines ⟨fun _ => ⟨rfl, rfl, fun _ => rfl⟩, rfl⟩

theorem keeps_sharersModify_lacks (b : ℕ) (f : Finset ℕ → Finset ℕ) :
    Keeps (Stays (Lacks pl r P p a)) (sharersModify r b f) :=
  Keeps.modify fun _ h => h.sameLines ⟨fun _ => ⟨rfl, rfl, fun _ => rfl⟩, rfl⟩

/-- The state of the line that is carried may change. -/
theorem keeps_setState_carries (ha : P a) (x : CoherenceState) :
    Keeps (Stays (Carries pl r P p a)) (setState r p x) := by
  refine Keeps.modify fun s h => ?_
  unfold Carries
  rw [State.modifyCache_cache]
  exact ⟨h.1.setState x h.2 ha, h.2.setState x h.2 fun _ => rfl⟩

/-- The victim may be made invalid. -/
theorem keeps_setState_lacks : Keeps (Stays (Lacks pl r P p a)) (setState r p .invalid) := by
  refine Keeps.modify fun s h => ?_
  obtain ⟨hwf, hway, habsent⟩ := h
  unfold Lacks
  rw [State.modifyCache_cache]
  refine ⟨hwf.modifyLine _ fun hv => absurd rfl hv, (Cache.modifyLine_way_iff _ _ _).2 hway, ?_⟩
  refine (Cache.stateOf_modifyLine_of_ne (fun l => l.setState .invalid) (fun hv haddr => ?_)
    fun hv => absurd rfl hv).trans habsent
  rw [← haddr, hwf.stateOf_line hway hv] at habsent
  exact hv habsent

/-- The allocation gives the place of the victim the new line. -/
theorem wp_allocate_lacks {addr handle : ℕ} (hp : p.index = (pl.cfg r).geometry.index addr)
    (halloc : (pl.cfg r).allocPolicy = .wAllocate)
    (h : Lacks pl r P p ((pl.cfg r).geometry.lineBase addr) s) {E : Stop → State ι → Prop} :
    wp (allocate pl r false p ((pl.cfg r).geometry.lineBase addr) addr handle)
      (fun _ => Carries pl r P p ((pl.cfg r).geometry.lineBase addr)) E s := by
  obtain ⟨hwf, hway, habsent⟩ := h
  refine wp_runIf_pos ⟨rfl, halloc⟩ ?_
  unfold Carries setNewLine
  rw [wp_modify, State.modifyCache_cache, ← Geometry.tag_lineBase]
  exact ⟨hwf.setNewLine, .of_setNewLine hway (hp.trans (Geometry.index_lineBase _).symm) habsent⟩

/-! ## Activations and runs -/

variable {x : Access} {mode : CoherenceCommand} {isHit : Bool} {size addr initiatorId handle : ℕ}

/-- The cache stays sound. -/
def WFAt (pl : Platform ι) (r : ι) (P : ℕ → Prop) (s : State ι) : Prop := (s.cache r).WF (pl.cfg r) P

/-- A miss of a cache that allocates. -/
theorem nonCoherentAllocating_allocates (ha : P ((pl.cfg r).geometry.lineBase addr))
    (hp : p.index = (pl.cfg r).geometry.index addr) (halloc : (pl.cfg r).allocPolicy = .wAllocate)
    (h : Lacks pl r P p ((pl.cfg r).geometry.lineBase addr) s) :
    wp (nonCoherentAllocating pl sinkPorts r mode false p size addr initiatorId handle)
      (fun _ => WFAt pl r P) (fun _ => WFAt pl r P) s := by
  have hstart : Keeps (Stays (Lacks pl r P p ((pl.cfg r).geometry.lineBase addr)))
      (nonCoherentReplace pl sinkPorts r false p) :=
    keeps_nonCoherentReplace sinkPorts_keep_lacks keeps_sharersModify_lacks fun _ => keeps_setState_lacks
  have hserve (accessSize : ℕ) : Keeps (Stays (Carries pl r P p ((pl.cfg r).geometry.lineBase addr)))
      (nonCoherentServe pl sinkPorts r mode false p addr accessSize initiatorId) :=
    keeps_nonCoherentServe sinkPorts_keep_carries keeps_sharersModify_carries
      fun _ => keeps_setState_carries ha
  refine .step (wp_getLine_any (.step (wp_check (.inr fun _ => h.1) ?_)))
  refine .bind ((hstart.wp_of_stays h).imp (fun _ _ h' => h') fun _ _ h' => h'.1) fun _ s₁ h₁ => ?_
  refine .bind (wp_allocate_lacks hp halloc h₁) fun _ s₂ h₂ => .step (wp_getLine_any (.step ?_))
  refine wp_check (.inr fun _ => h₂.1) (.step ?_)
  exact ((hserve _).wp_of_stays h₂).imp (fun _ _ h' => h'.1) fun _ _ h' => h'.1

/-- An activation at a place that carries the line, by a hit or because nothing is allocated. -/
theorem nonCoherentAt_carries (ha : P a) (halloc : isHit = true ∨ (pl.cfg r).allocPolicy ≠ .wAllocate)
    (h : Carries pl r P p a s) :
    wp (nonCoherentAt pl sinkPorts r mode isHit p size addr initiatorId handle)
      (fun _ => WFAt pl r P) (fun _ => WFAt pl r P) s := by
  have hset (x : CoherenceState) : Keeps (Stays (Carries pl r P p a)) (setState r p x) :=
    keeps_setState_carries ha x
  have hkeep : Keeps (Stays (Carries pl r P p a))
      (nonCoherentAt pl sinkPorts r mode isHit p size addr initiatorId handle) := by
    refine keeps_nonCoherentAt sinkPorts_keep_carries keeps_sharersModify_carries (fun _ => hset _) ?_
    intro _ _
    exact keeps_nonCoherentAllocating sinkPorts_keep_carries keeps_sharersModify_carries halloc
      (fun _ => hset _) fun _ => hset
  exact (hkeep.wp_of_stays h).imp (fun _ _ h' => h'.1) fun _ _ h' => h'.1

/-- An activation that misses and marks no line keeps the lines well formed. -/
theorem nonCoherentAt_lacks (halloc : (pl.cfg r).allocPolicy ≠ .wAllocate)
    (hmode : (pl.cfg r).PassesOn mode ∨
      (mode = .read ∧ (pl.cfg r).inclusionOfHigher = .exclusive) ∨ mode = .invalidate)
    (h : Lacks pl r P p a s) :
    wp (nonCoherentAt pl sinkPorts r mode false p size addr initiatorId handle)
      (fun _ => WFAt pl r P) (fun _ => WFAt pl r P) s := by
  have hkeep : Keeps (Stays (Lacks pl r P p a))
      (nonCoherentAt pl sinkPorts r mode false p size addr initiatorId handle) := by
    refine keeps_nonCoherentAt sinkPorts_keep_lacks keeps_sharersModify_lacks (by simp) ?_
    intro hinv hread
    refine keeps_nonCoherentAllocating sinkPorts_keep_lacks keeps_sharersModify_lacks (.inr halloc)
      (fun _ => keeps_setState_lacks) fun hpass => ?_
    rcases hmode with hmode | hmode | hmode
    · exact absurd hmode (hpass rfl)
    · exact absurd ⟨rfl, hmode.2, hmode.1⟩ hread
    · exact absurd hmode hinv
  exact (hkeep.wp_of_stays h).imp (fun _ _ h' => h'.1) fun _ _ h' => h'.1

/-- An activation that misses in a cache that allocates leaves the lines well formed. -/
theorem nonCoherentAt_allocates (ha : P ((pl.cfg r).geometry.lineBase addr))
    (hp : p.index = (pl.cfg r).geometry.index addr) (halloc : (pl.cfg r).allocPolicy = .wAllocate)
    (h : Lacks pl r P p ((pl.cfg r).geometry.lineBase addr) s) :
    wp (nonCoherentAt pl sinkPorts r mode false p size addr initiatorId handle)
      (fun _ => WFAt pl r P) (fun _ => WFAt pl r P) s := by
  unfold nonCoherentAt
  split
  · exact .step (wp_runIf_neg (by simp) h.1)
  · split
    · exact .step (wp_check (.inr fun _ => h.1) h.1)
    · split
      · refine .bind ?_ fun _ _ h' => h'
        exact ((keeps_nonCoherentMissRead sinkPorts_keep_lacks keeps_sharersModify_lacks).wp_of_stays h).imp
          (fun _ _ h' => h'.1) fun _ _ h' => h'.1
      · exact nonCoherentAllocating_allocates ha hp halloc h

/-- One activation keeps the cache sound. -/
theorem nonCoherentLine_wf (hdistinct : Distinct (pl.cfg r).geometry P) (h : WFAt pl r P s)
    (hx : Placed pl r P s x) :
    wp (x.nonCoherentLine pl sinkPorts r) (fun _ => WFAt pl r P) (fun _ => WFAt pl r P) s := by
  obtain ⟨ha, hplaced⟩ := hx
  have hfind := h.find hdistinct ha (Geometry.index_lineBase x.addr).symm (Geometry.tag_lineBase x.addr).symm
  obtain ⟨hway, hindex⟩ := (s.cache r).find_way (pl.cfg r).geometry x.addr
  refine .bind ?_ fun _ _ h' => h'
  rcases hfound : (s.cache r).find (pl.cfg r).geometry x.addr with ⟨isHit, p⟩
  rw [hfound] at hfind hway hindex hplaced
  refine .step (wp_lookup_find (fun _ => h) fun f hf _ => ?_)
  rw [hfound]
  have hwf {t : State ι} (ht : t.cache r = f (s.cache r)) : WFAt pl r P t := by
    unfold WFAt
    rw [ht]
    exact hf.wf h
  have hcache : (s.modifyCache r f).cache r = f (s.cache r) := State.modifyCache_cache ..
  refine .step (wp_getLine_any (.step (wp_check (.inr fun _ => hwf hcache) (.step ?_))))
  refine wp_notifyVictim_beside fun s₁ hc₁ _ => ?_
  have hs₁ : s₁.cache r = f (s.cache r) := by rw [hc₁, hcache]
  have hcarries (ho : (s.cache r).Owns (pl.cfg r).geometry p ((pl.cfg r).geometry.lineBase x.addr)) :
      Carries pl r P p ((pl.cfg r).geometry.lineBase x.addr) s₁ := by
    refine ⟨hwf hs₁, ?_⟩
    rw [hs₁]
    exact hf.owns ho
  cases isHit with
  | true => exact nonCoherentAt_carries ha (.inl rfl) (hcarries hfind.1)
  | false =>
    rw [if_neg (by simp)] at hfind
    have hlacks : Lacks pl r P p ((pl.cfg r).geometry.lineBase x.addr) s₁ := by
      unfold Lacks
      rw [hs₁]
      exact ⟨hf.wf h, hf.way_iff.2 hway, (hf.stateOf_eq _).trans hfind⟩
    by_cases halloc : (pl.cfg r).allocPolicy = .wAllocate
    · exact nonCoherentAt_allocates ha hindex halloc hlacks
    · rcases hplaced with hw | hhit | hpass | hread | hinv | ⟨haddr, htag⟩
      · exact absurd hw halloc
      · cases hhit
      · exact nonCoherentAt_lacks halloc (.inl hpass) hlacks
      · exact nonCoherentAt_lacks halloc (.inr (.inl hread)) hlacks
      · exact nonCoherentAt_lacks halloc (.inr (.inr hinv)) hlacks
      · refine nonCoherentAt_carries ha (.inr halloc) (hcarries ⟨hway, ?_, haddr, ?_, ?_⟩)
        · rw [hindex, Geometry.index_lineBase]
        · rw [htag, Geometry.tag_lineBase]
        · intro q hq hqi hv hqa
          have hqi' : q.index = (pl.cfg r).geometry.index ((pl.cfg r).geometry.lineBase x.addr) := by
            rw [hqi, hindex, Geometry.index_lineBase]
          exact absurd hv (Cache.not_valid_of_stateOf hfind hq hqi' hqa)

/-- Hits are sound in every state of a run, also of one that stops, whose line addresses are told
apart by the cache and which never marks a line under a foreign address. -/
theorem hits_sound (fuel : ℕ) (hdistinct : Distinct (pl.cfg r).geometry P) {xs : List Access}
    (hx : Along (Access.nonCoherent pl sinkPorts r fuel)
      (fun s x => Rounds (Access.nonCoherentLine pl sinkPorts r) (Placed pl r P) fuel s x)
      (.init pl) xs) :
    ((endState (xs.forM (Access.nonCoherent pl sinkPorts r fuel) (.init pl))).cache r).HitSound
      (pl.cfg r).geometry P := by
  have hrun : wp (xs.forM (Access.nonCoherent pl sinkPorts r fuel)) (fun _ => WFAt pl r P)
      (fun _ => WFAt pl r P) (.init pl) := by
    refine hx.wp_forM (fun s x _ h hx => ?_) Cache.wf_init
    rw [Access.nonCoherent_eq_loop]
    exact hx.wp_loop (fun t y ht hy => nonCoherentLine_wf hdistinct ht hy) (fun _ ht => ht) h
  exact hrun.endState.hitSound hdistinct

end

/-- A read of the line 0 and one of the line 64, which take each other's place. -/
theorem hits_sound_oneLine :
    ((endState ([{ mode := .read, size := 8, addr := 0 }, { mode := .read, size := 8, addr := 64 }].forM
      (Access.nonCoherent (.single (oneLine .nine)) sinkPorts () 1)
      (.init (.single (oneLine .nine))))).cache ()).HitSound (oneLine .nine).geometry
      fun a => a = 0 ∨ a = 64 := by
  have hdistinct : Distinct ((Platform.single (oneLine .nine)).cfg ()).geometry fun a => a = 0 ∨ a = 64 := by
    rintro a b (rfl | rfl) (rfl | rfl) _ htag
    · rfl
    · exact absurd htag (by decide)
    · exact absurd htag (by decide)
    · rfl
  refine hits_sound 1 hdistinct ?_
  refine .cons (.last ⟨.inl (by decide), .inl rfl⟩ (by decide +kernel)) ?_
  exact .cons (.last ⟨.inr (by decide), .inl rfl⟩ (by decide +kernel)) trivial

/-- The line at `2 ^ 38` has the tag `2 ^ 32`, of which nothing is stored: after a read of the line 0
its lookup hits. -/
theorem hit_of_absent_line : ¬ ∀ (cfg : CacheConfig), (∃ k, cfg.geometry.cacheLineSize = 2 ^ k) →
    (∃ k, cfg.geometry.nbSets = 2 ^ k) → cfg.geometry.nbInterleavedCaches ≤ 1 →
    ∀ (fuel : ℕ) (xs : List Access), (∀ x ∈ xs, x.addr < 2 ^ 64 ∧ x.size < 2 ^ 64) →
      ((endState (xs.forM (Access.nonCoherent (.single cfg) sinkPorts () fuel)
        (.init (.single cfg)))).cache ()).HitSound cfg.geometry fun a => a < 2 ^ 64 := by
  intro hclaim
  have hsound := hclaim (oneLine .nine) ⟨6, rfl⟩ ⟨0, by decide⟩ (by decide) 1
    [{ mode := .read, size := 8, addr := 0 }] (by simp)
  obtain ⟨x, hx, ⟨i, w⟩, hi, hw, haddr, -⟩ := (hsound.hit_iff (2 ^ 38) (by decide +kernel)).1 (by decide +kernel)
  obtain rfl : i = 0 := Nat.lt_one_iff.1 hi
  obtain rfl : w = 0 := Nat.lt_one_iff.1 hw
  revert haddr
  decide +kernel

end Vpsim.Memory
