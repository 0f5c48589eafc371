import Vpsim.Memory.Access
import Vpsim.Memory.View

/-!
# Dirty lines of a cache without coherence

A cache on its own, whose transfers are recorded: which accesses take a modified line out of
the cache, or its mark off the line, without writing it to the next level.
-/

namespace Vpsim.Memory

open Vpsim.Lib

/-- The ports of a cache on its own: its transfers are recorded and nothing answers. -/
def sinkPorts {ι : Type} : DataPorts ι where
  forwardReadData addr size := emit (.transfer .read addr size)
  forwardWriteData addr size := emit (.transfer .write addr size)
  forwardEvict addr size := emit (.transfer .evict addr size)
  backInvalidate addr _ := emit (.transfer .invalidate addr 0)
  backwardRead addr size _ := emit (.transfer .readBack addr size)

/-- The policies that `DynamicCache::make` gives to a cache of a level. -/
def CacheConfig.Configurable (cfg : CacheConfig) : Prop :=
  (cfg.level = 1 → cfg.inclusionOfHigher = .nine) ∧ (cfg.level = 3 → cfg.inclusionOfLower = .nine)

instance (cfg : CacheConfig) : Decidable cfg.Configurable := by
  unfold CacheConfig.Configurable
  infer_instance

/-- The event is a write to the next level that covers the bytes of a line. -/
def Event.WritesLine (a size : ℕ) : Event → Prop
  | .transfer .write addr n => addr ≤ a ∧ a + size ≤ addr + n
  | _ => False

section

variable {ι : Type} (pl : Platform ι) (r : ι)

/-- Between the two states every line that was modified has stayed so or has been written to the
next level. -/
def DirtyKept (s s' : State ι) : Prop :=
  let g := (pl.cfg r).geometry
  ∃ l, s'.trace = l ++ s.trace ∧ ∀ a, (s.cache r).Holds g a .modified →
    (s'.cache r).Holds g a .modified ∨ ∃ e ∈ l, e.WritesLine a g.cacheLineSize

/-- The access does not find a modified line whose mark it takes off: by handing it to an upper
cache, by taking it over from one, or by replacing it in a write-through cache. -/
def SparesDirty (s : State ι) (x : Access) : Prop :=
  let cfg := pl.cfg r
  let found := (s.cache r).find cfg.geometry x.addr
  let handsOver := x.mode = .read ∧ cfg.inclusionOfHigher = .exclusive
  ((s.cache r).line found.2).state = .modified →
    if found.1 then x.mode ≠ .evict ∧ ¬ handsOver
    else cfg.writePolicy = .wBack ∨ x.mode = .invalidate ∨ handsOver

/-- The place-wise form of `DirtyKept`, which composes. -/
structure Spared (s s' : State ι) : Prop where
  way : ∀ q, (s'.cache r).Way q ↔ (s.cache r).Way q
  line : ∃ l, s'.trace = l ++ s.trace ∧ ∀ q, ((s.cache r).line q).state = .modified →
    (((s'.cache r).line q).state = .modified ∧
      ((s'.cache r).line q).address = ((s.cache r).line q).address) ∨
    .transfer .write ((s.cache r).line q).address (pl.cfg r).geometry.cacheLineSize ∈ l

variable {pl r} {s₀ s s' : State ι} {p : LineRef} {E : Stop → State ι → Prop}
  {Q : Unit → State ι → Prop}

namespace Spared

theorem refl : Spared pl r s s := ⟨fun _ => Iff.rfl, [], rfl, fun _ h => .inl ⟨h, rfl⟩⟩

theorem trans (h : Spared pl r s₀ s) (h' : Spared pl r s s') : Spared pl r s₀ s' := by
  obtain ⟨l, hl, hline⟩ := h.line
  obtain ⟨l', hl', hline'⟩ := h'.line
  refine ⟨fun q => (h'.way q).trans (h.way q), l' ++ l, by rw [hl', hl, List.append_assoc], ?_⟩
  intro q hq
  rcases hline q hq with ⟨hst, haddr⟩ | hev
  · rcases hline' q hst with ⟨hst', haddr'⟩ | hev'
    · exact .inl ⟨hst', haddr'.trans haddr⟩
    · rw [haddr] at hev'
      exact .inr (List.mem_append_left _ hev')
  · exact .inr (List.mem_append_right _ hev)

/-- What is kept place by place is kept address by address. -/
theorem dirtyKept (h : Spared pl r s s') : DirtyKept pl r s s' := by
  obtain ⟨l, hl, hline⟩ := h.line
  refine ⟨l, hl, fun a ha => ?_⟩
  obtain ⟨q, hindex, hway, rfl, hst⟩ := ha
  rcases hline q hst with ⟨hst', haddr⟩ | hev
  · exact .inl ⟨q, hindex, (h.way q).2 hway, haddr, hst'⟩
  · exact .inr ⟨_, hev, le_rfl, le_rfl⟩

end Spared

/-- A transfer is recorded. -/
theorem wp_emit_spared {e : Event} (h : Spared pl r s₀ s)
    (hQ : ∀ s', Spared pl r s₀ s' → s'.cache = s.cache → Q () s') : wp (emit e) Q E s :=
  hQ _ (h.trans ⟨fun _ => Iff.rfl, [e], rfl, fun _ hq => .inl ⟨hq, rfl⟩⟩) rfl

/-- The eviction notification is beside the lines. -/
theorem wp_notifyVictim_spared {isHit : Bool} (h : Spared pl r s₀ s)
    (hQ : ∀ s', Spared pl r s₀ s' → s'.cache = s.cache → Q () s') :
    wp (notifyVictim pl r isHit p) Q E s := by
  refine wp_notifyVictim_beside fun s' hc ht => hQ s' (h.trans ⟨fun q => ?_, [], ht, fun q hq => ?_⟩) hc
  · rw [hc]
  · rw [hc]
    exact .inl ⟨hq, rfl⟩

variable [DecidableEq ι]

/-- A change that leaves the lines alone. -/
theorem Spared.sameLines (h : Spared pl r s₀ s) {f : Cache → Cache}
    (hf : (s.cache r).SameLines (f (s.cache r))) : Spared pl r s₀ (s.modifyCache r f) := by
  refine h.trans ⟨fun q => ?_, [], rfl, fun q hq => .inl ?_⟩
  · rw [State.modifyCache_cache, hf.way_iff]
  · rw [State.modifyCache_cache, hf.line]
    exact ⟨hq, rfl⟩

/-- A change of a line that is not modified, or stays so. -/
theorem Spared.modifyLine (h : Spared pl r s₀ s) {f : CacheLine → CacheLine}
    (hf : ((s.cache r).line p).state = .modified → (f ((s.cache r).line p)).state = .modified ∧
      (f ((s.cache r).line p)).address = ((s.cache r).line p).address) :
    Spared pl r s₀ (s.modifyCache r fun c => c.modifyLine p f) := by
  refine h.trans ⟨fun q => ?_, [], rfl, fun q hq => .inl ?_⟩
  · rw [State.modifyCache_cache, Cache.modifyLine_way_iff]
  · rw [State.modifyCache_cache, Cache.modifyLine_line]
    by_cases heq : q = p
    · subst heq
      rw [if_pos rfl]
      exact hf hq
    · rw [if_neg heq]
      exact ⟨hq, rfl⟩

/-- A call on `Sharers` spares the modified lines. -/
theorem wp_sharersModify_spared {a : ℕ} {f : Finset ℕ → Finset ℕ} (h : Spared pl r s₀ s)
    (hQ : ∀ s', Spared pl r s₀ s' → (∀ q, (s'.cache r).line q = (s.cache r).line q) → Q () s') :
    wp (sharersModify r a f) Q E s := by
  refine hQ _ (h.sameLines ⟨fun _ => ⟨rfl, rfl, fun _ => rfl⟩, rfl⟩) fun q => ?_
  rw [State.modifyCache_cache]
  rfl

/-- A state is set that is `Modified`, or the line was not modified. -/
theorem wp_setState_spared {x : CoherenceState} (h : Spared pl r s₀ s)
    (hx : x = .modified ∨ ((s.cache r).line p).state ≠ .modified)
    (hQ : ∀ s', Spared pl r s₀ s' → ((s'.cache r).line p).state = x → Q () s') :
    wp (setState r p x) Q E s := by
  refine hQ _ (h.modifyLine fun hm => ⟨hx.resolve_right fun hne => hne hm, rfl⟩) ?_
  rw [State.modifyCache_cache, Cache.modifyLine_line, if_pos rfl]
  rfl

/-- A line loses its mark after it has been written to the next level. -/
theorem wp_writeBack_spared (h : Spared pl r s₀ s)
    (hQ : ∀ s', Spared pl r s₀ s' → ((s'.cache r).line p).state = .invalid → Q () s') :
    wp (do
      emit (.transfer .write ((s.cache r).line p).address (pl.cfg r).geometry.cacheLineSize)
      setState r p .invalid) Q E s := by
  refine .step (hQ _ (h.trans ⟨fun q => ?_, [_], rfl, fun q hq => ?_⟩) ?_)
  · rw [State.modifyCache_cache, Cache.modifyLine_way_iff]
  · rw [State.modifyCache_cache, Cache.modifyLine_line]
    by_cases heq : q = p
    · subst heq
      exact .inr List.mem_cons_self
    · rw [if_neg heq]
      exact .inl ⟨hq, rfl⟩
  · rw [State.modifyCache_cache, Cache.modifyLine_line, if_pos rfl]
    rfl

/-! ## The parts of an access -/

variable {isHit : Bool} {mode : CoherenceCommand} {addr accessSize initiatorId handle : ℕ}

theorem nonCoherentInvalidate_spared (h : Spared pl r s₀ s) :
    wp (nonCoherentInvalidate pl sinkPorts r isHit p) (fun _ => Spared pl r s₀) E s := by
  refine wp_runIf (fun _ => .step (wp_getLine_any ?_)) fun _ => h
  by_cases hm : ((s.cache r).line p).state = .modified
  · unfold runIf
    rw [if_pos hm]
    exact wp_writeBack_spared h fun s' h' _ => h'
  · refine .step (wp_runIf_neg hm ?_)
    exact wp_setState_spared h (.inr hm) fun s' h' _ => h'

theorem nonCoherentMissRead_spared (h : Spared pl r s₀ s) :
    wp (nonCoherentMissRead pl sinkPorts r addr initiatorId) (fun _ => Spared pl r s₀)
      (fun _ _ => True) s := by
  refine .step (wp_check (.inr fun _ => trivial) (.step (wp_sharersOf ?_)))
  split <;>
  · refine .step (wp_emit_spared h fun s₁ h₁ _ => ?_)
    exact wp_sharersModify_spared h₁ fun s₂ h₂ _ => h₂

/-- After the replacement the victim is not modified, if it was not or the cache writes back. -/
theorem nonCoherentReplace_spared (h : Spared pl r s₀ s)
    (hmiss : ((s.cache r).line p).state = .modified → (pl.cfg r).writePolicy = .wBack) :
    wp (nonCoherentReplace pl sinkPorts r false p)
      (fun _ s' => Spared pl r s₀ s' ∧ ((s'.cache r).line p).state ≠ .modified) E s := by
  have hevict {s₁} (h₁ : Spared pl r s₀ s₁) (hst : ((s₁.cache r).line p).state ≠ .modified) :
      wp (do
        let line ← getLine r p
        runIf (false = false ∧ line.state = .shared ∧ (pl.cfg r).inclusionOfLower = .exclusive)
          (emit (.transfer .evict line.address (pl.cfg r).geometry.cacheLineSize))
        runIf ((pl.cfg r).inclusionOfHigher = .inclusive ∧ false = false) do
          let line ← getLine r p
          let ids ← sharersOf r line.address
          runIf (ids.card ≠ 0) do
            emit (.transfer .invalidate line.address 0)
            let line ← getLine r p
            sharersModify r line.address fun _ => ∅)
        (fun _ s' => Spared pl r s₀ s' ∧ ((s'.cache r).line p).state ≠ .modified) E s₁ := by
    have hinvalidate {s₂} (h₂ : Spared pl r s₀ s₂) (hst₂ : ((s₂.cache r).line p).state ≠ .modified) :
        wp (runIf ((pl.cfg r).inclusionOfHigher = .inclusive ∧ false = false) do
          let line ← getLine r p
          let ids ← sharersOf r line.address
          runIf (ids.card ≠ 0) do
            emit (.transfer .invalidate line.address 0)
            let line ← getLine r p
            sharersModify r line.address fun _ => ∅)
          (fun _ s' => Spared pl r s₀ s' ∧ ((s'.cache r).line p).state ≠ .modified) E s₂ := by
      refine wp_runIf (fun _ => .step (wp_getLine_any (.step (wp_sharersOf ?_)))) fun _ => ⟨h₂, hst₂⟩
      refine wp_runIf (fun _ => .step (wp_emit_spared h₂ fun s₃ h₃ hc₃ => ?_)) fun _ => ⟨h₂, hst₂⟩
      refine .step (wp_getLine_any (wp_sharersModify_spared h₃ fun s₄ h₄ hline => ⟨h₄, ?_⟩))
      rw [hline, hc₃]
      exact hst₂
    refine .step (wp_getLine_any (.step (wp_runIf (fun _ => ?_) fun _ => hinvalidate h₁ hst)))
    refine wp_emit_spared h₁ fun s₂ h₂ hc₂ => hinvalidate h₂ ?_
    rw [hc₂]
    exact hst
  refine .step (wp_getLine_any (.step ?_))
  by_cases hm : ((s.cache r).line p).state = .modified
  · refine wp_runIf_pos ⟨rfl, hm, hmiss hm⟩ (wp_writeBack_spared h fun s₁ h₁ hst => ?_)
    exact hevict h₁ (by rw [hst]; decide)
  · exact wp_runIf_neg (fun hc => hm hc.2.1) (hevict h hm)

/-- A hit replaces nothing. -/
theorem nonCoherentReplace_hit {io : DataPorts ι} :
    wp (nonCoherentReplace pl io r true p) (fun _ s' => s' = s) E s := by
  refine .step (wp_getLine_any (.step (wp_runIf_neg (by simp) ?_)))
  exact .step (wp_getLine_any (.step (wp_runIf_neg (by simp) (wp_runIf_neg (by simp) rfl))))

theorem nonCoherentRead_spared (h : Spared pl r s₀ s)
    (hp : isHit = false ∨ (pl.cfg r).inclusionOfHigher = .exclusive →
      ((s.cache r).line p).state ≠ .modified) :
    wp (nonCoherentRead pl sinkPorts r isHit p initiatorId) (fun _ => Spared pl r s₀)
      (fun _ _ => True) s := by
  refine .step (wp_check (.inr fun _ => trivial) (.step (wp_getLine_any (.step ?_))))
  refine wp_sharersModify_spared h fun s₁ h₁ hline => ?_
  split
  · rename_i hhit
    refine .step (wp_emit_spared h₁ fun s₂ h₂ hc₂ => wp_setState_spared h₂ (.inr ?_) fun _ h' _ => h')
    rw [hc₂, hline]
    exact hp (.inl hhit)
  · refine wp_runIf (fun hx => wp_setState_spared h₁ (.inr ?_) fun _ h' _ => h') fun _ => h₁
    rw [hline]
    exact hp (.inr hx)

theorem nonCoherentStore_spared (h : Spared pl r s₀ s)
    (hp : isHit = false → ((s.cache r).line p).state ≠ .modified) :
    wp (nonCoherentStore pl sinkPorts r isHit p addr accessSize) (fun _ => Spared pl r s₀) E s := by
  refine .step (wp_getLine_any ?_)
  split
  · rename_i hx
    refine .step (wp_sharersOf ?_)
    split
    · exact wp_setState_spared h (.inr (hp hx.2)) fun _ h' _ => h'
    · exact .step (wp_emit_spared h fun s₁ h₁ _ => wp_setState_spared h₁ (.inl rfl) fun _ h' _ => h')
  · split
    · exact wp_emit_spared h fun _ h' _ => h'
    · refine .step (wp_runIf (fun _ => wp_emit_spared h fun s₁ h₁ _ => ?_) fun _ => ?_)
      · exact wp_setState_spared h₁ (.inl rfl) fun _ h' _ => h'
      · exact wp_setState_spared h (.inl rfl) fun _ h' _ => h'

theorem nonCoherentWrite_spared (h : Spared pl r s₀ s)
    (hp : isHit = false → ((s.cache r).line p).state ≠ .modified) :
    wp (nonCoherentWrite pl sinkPorts r isHit p addr accessSize initiatorId) (fun _ => Spared pl r s₀)
      E s := by
  refine .step (wp_getLine_any (.step (wp_sharersModify_spared h fun s₁ h₁ hline => ?_)))
  refine .bind (nonCoherentStore_spared h₁ fun hhit => ?_) fun _ s₂ h₂ => .step (wp_getLine_any ?_)
  · rw [hline]
    exact hp hhit
  · exact wp_runIf (fun _ => wp_emit_spared h₂ fun _ h' _ => h') fun _ => h₂

theorem nonCoherentEvict_spared (h : Spared pl r s₀ s) (hp : ((s.cache r).line p).state ≠ .modified) :
    wp (nonCoherentEvict pl r isHit p initiatorId) (fun _ => Spared pl r s₀) (fun _ _ => True) s := by
  refine .step (wp_check (.inr fun _ => trivial) (.step (wp_getLine_any (.step ?_))))
  refine wp_sharersModify_spared h fun s₁ h₁ hline => .step (wp_check (.inr fun _ => trivial) (.step ?_))
  refine wp_sharersOf (wp_setState_spared h₁ (.inr ?_) fun _ h' _ => h')
  rw [hline]
  exact hp

/-- A new line in a place that is not modified spares the modified lines. -/
theorem wp_allocate_spared {address : ℕ} (h : Spared pl r s₀ s)
    (hp : isHit = false → ((s.cache r).line p).state ≠ .modified)
    (hQ : ∀ s', Spared pl r s₀ s' → (isHit = false → ((s'.cache r).line p).state ≠ .modified) →
      (isHit = true → s' = s) → Q () s') :
    wp (allocate pl r isHit p address addr handle) Q E s := by
  refine wp_runIf (fun hc => ?_) fun _ => hQ s h hp fun _ => rfl
  refine hQ _ (h.modifyLine fun hm => absurd hm (hp hc.1)) (fun _ => ?_) fun hhit => ?_
  · rw [State.modifyCache_cache, Cache.modifyLine_line, if_pos rfl]
    exact CoherenceState.noConfusion
  · rw [hc.1] at hhit
    cases hhit

theorem nonCoherentServe_spared (h : Spared pl r s₀ s)
    (hmiss : isHit = false → ((s.cache r).line p).state ≠ .modified)
    (hhit : isHit = true → ((s.cache r).line p).state = .modified →
      mode ≠ .evict ∧ ¬ (mode = .read ∧ (pl.cfg r).inclusionOfHigher = .exclusive)) :
    wp (nonCoherentServe pl sinkPorts r mode isHit p addr accessSize initiatorId)
      (fun _ => Spared pl r s₀) (fun _ _ => True) s := by
  unfold nonCoherentServe
  split
  · refine nonCoherentRead_spared h fun hor hm => ?_
    cases isHit with
    | false => exact hmiss rfl hm
    | true => exact (hhit rfl hm).2 ⟨rfl, hor.resolve_left (by simp)⟩
  · exact nonCoherentWrite_spared h hmiss
  · refine nonCoherentEvict_spared h fun hm => ?_
    cases isHit with
    | false => exact hmiss rfl hm
    | true => exact (hhit rfl hm).1 rfl
  · exact wp_check (.inr fun _ => trivial) h

theorem nonCoherentAllocating_spared {size : ℕ} (h : Spared pl r s₀ s)
    (hmiss : isHit = false → ((s.cache r).line p).state = .modified →
      (pl.cfg r).writePolicy = .wBack)
    (hhit : isHit = true → ((s.cache r).line p).state = .modified →
      mode ≠ .evict ∧ ¬ (mode = .read ∧ (pl.cfg r).inclusionOfHigher = .exclusive)) :
    wp (nonCoherentAllocating pl sinkPorts r mode isHit p size addr initiatorId handle)
      (fun _ => Spared pl r s₀) (fun _ _ => True) s := by
  have hreplace : wp (nonCoherentReplace pl sinkPorts r isHit p)
      (fun _ s' => Spared pl r s₀ s' ∧ (isHit = false → ((s'.cache r).line p).state ≠ .modified) ∧
        (isHit = true → s' = s)) (fun _ _ => True) s := by
    cases isHit with
    | false =>
      refine (nonCoherentReplace_spared h (hmiss rfl)).mono fun _ s' h' => ?_
      exact ⟨h'.1, fun _ => h'.2, by simp⟩
    | true =>
      refine nonCoherentReplace_hit.mono fun _ s' h' => ?_
      rw [h']
      exact ⟨h, by simp, fun _ => rfl⟩
  refine .step (wp_getLine_any (.step (wp_check (.inr fun _ => trivial) ?_)))
  refine .bind hreplace fun _ s₁ ⟨h₁, hmiss₁, hhit₁⟩ => .step ?_
  refine wp_allocate_spared h₁ hmiss₁ fun s₂ h₂ hmiss₂ hhit₂ => .step (wp_getLine_any (.step ?_))
  refine wp_check (.inr fun _ => trivial) ?_
  refine .bind (nonCoherentServe_spared h₂ hmiss₂ fun ht => ?_) fun _ s₃ h₃ => h₃
  rw [hhit₂ ht, hhit₁ ht]
  exact hhit ht

/-- One activation keeps the modified lines, unless it finds one that it does not spare. -/
theorem nonCoherentLine_spared {x : Access} (hx : SparesDirty pl r s x) :
    wp (x.nonCoherentLine pl sinkPorts r) (fun _ => Spared pl r s) (fun _ _ => True) s := by
  refine .bind ?_ fun _ _ h' => h'
  rcases hfound : (s.cache r).find (pl.cfg r).geometry x.addr with ⟨isHit, p⟩
  refine .step (wp_lookup_find (fun _ => trivial) fun f hf _ => ?_)
  rw [hfound]
  have h₁ : Spared pl r s (s.modifyCache r f) := Spared.refl.sameLines hf
  have hline : ((s.modifyCache r f).cache r).line = (s.cache r).line := by
    funext q
    rw [State.modifyCache_cache, hf.line]
  unfold SparesDirty at hx
  dsimp only at hx
  rw [hfound] at hx
  refine .step (wp_getLine_any (.step (wp_check (.inr fun _ => trivial) (.step ?_))))
  refine wp_notifyVictim_spared h₁ fun s₂ h₂ hc₂ => ?_
  have hline₂ : (s₂.cache r).line p = (s.cache r).line p := by rw [hc₂, hline]
  unfold nonCoherentAt
  split
  · exact .bind (nonCoherentInvalidate_spared h₂) fun _ _ h' => h'
  · split
    · exact .step (wp_check (.inr fun _ => trivial) h₂)
    · split
      · exact .bind (nonCoherentMissRead_spared h₂) fun _ _ h' => h'
      · rename_i hinv _ hread
        refine nonCoherentAllocating_spared h₂ (fun hm hst => ?_) fun ht hst => ?_
        · rw [hline₂] at hst
          subst hm
          rcases hx hst with hback | hmode | hover
          · exact hback
          · exact absurd hmode hinv
          · exact absurd ⟨rfl, hover.2, hover.1⟩ hread
        · rw [hline₂] at hst
          subst ht
          exact hx hst

/-! ## Runs -/

/-- In every run whose activations spare the modified lines that they find, each access that
completes leaves every line that was modified modified, or has written it to the next level. -/
theorem dirty_lines_written (fuel : ℕ) {xs : List Access}
    (hc : Along (Access.nonCoherent pl sinkPorts r fuel)
      (fun s x => Rounds (Access.nonCoherentLine pl sinkPorts r) (SparesDirty pl r) fuel s x)
      (.init pl) xs) :
    Along (Access.nonCoherent pl sinkPorts r fuel)
      (fun s x => ∀ s', x.nonCoherent pl sinkPorts r fuel s = .ok () s' → DirtyKept pl r s s')
      (.init pl) xs := by
  refine hc.imp (fun _ => True) (fun _ _ _ _ _ _ => trivial) (fun s x _ hx s' hrun => ?_) trivial
  have hwp : wp (x.nonCoherent pl sinkPorts r fuel) (fun _ => Spared pl r s) (fun _ _ => True) s := by
    rw [Access.nonCoherent_eq_loop]
    refine hx.wp_loop (fun t y ht hy => ?_) (fun _ _ => trivial) .refl
    exact (nonCoherentLine_spared hy).mono fun _ t' ht' => ht.trans ht'
  exact (hwp.of_ok hrun).dirtyKept

end

instance {ι : Type} (pl : Platform ι) (r : ι) (s : State ι) (x : Access) :
    Decidable (SparesDirty pl r s x) := by
  unfold SparesDirty
  infer_instance

/-- A cache of one 64-byte line at level 2. -/
def oneLine (higher : CacheInclusionPolicy) : CacheConfig where
  geometry := ⟨64, 64, 1, 1⟩
  accepted := ⟨by decide, by decide, by decide⟩
  level := 2
  inclusionOfHigher := higher

/-- A line is written, and then replaced by the write of another one. -/
theorem dirty_lines_written_oneLine :
    Along (Access.nonCoherent (.single (oneLine .nine)) sinkPorts () 1)
      (fun s x => ∀ s', x.nonCoherent (.single (oneLine .nine)) sinkPorts () 1 s = .ok () s' →
        DirtyKept (.single (oneLine .nine)) () s s')
      (.init (.single (oneLine .nine))) [{ mode := .write, size := 8, addr := 0 },
        { mode := .write, size := 8, addr := 64 }] := by
  apply dirty_lines_written
  refine .cons (.last (by decide +kernel) (by decide +kernel)) ?_
  exact .cons (.last (by decide +kernel) (by decide +kernel)) trivial

/-- The write of the line 0, and its read by an upper cache. -/
def writeLine0 : Access := { mode := .write, size := 64, addr := 0 }

@[inherit_doc writeLine0] def readLine0 : Access := { mode := .read, size := 64, addr := 0 }

/-- A cache that excludes the lines of the upper caches gives a line that it has been handed
modified to a reader, without writing it to the next level. -/
theorem dirty_line_handed_over : ¬ ∀ (cfg : CacheConfig), cfg.Configurable → cfg.allocPolicy = .wAllocate →
    ∀ (fuel : ℕ) (xs : List Access),
      (∀ x ∈ xs, x.mode ∈ [.read, .write, .evict, .invalidate] ∧ x.Fits cfg.geometry) →
      Along (Access.nonCoherent (.single cfg) sinkPorts () fuel)
        (fun s x => ∀ s', x.nonCoherent (.single cfg) sinkPorts () fuel s = .ok () s' →
          DirtyKept (.single cfg) () s s') (.init (.single cfg)) xs := by
  intro hclaim
  have hfits {x : Access} (hx : x = writeLine0 ∨ x = readLine0) :
      x.mode ∈ [.read, .write, .evict, .invalidate] ∧ x.Fits (oneLine .exclusive).geometry := by
    rcases hx with rfl | rfl <;> exact ⟨by decide, Access.fits_of_lt (by decide)⟩
  have hrun := hclaim (oneLine .exclusive) (by decide) rfl 1 [writeLine0, readLine0] fun x hx =>
    hfits (by simpa using hx)
  have hwrite := eq_ok_endState (r := writeLine0.nonCoherent (.single (oneLine .exclusive)) sinkPorts ()
    1 (.init (.single (oneLine .exclusive)))) (by decide +kernel)
  obtain ⟨hfirst, -⟩ := hrun.2 _ hwrite
  have hread := eq_ok_endState (r := readLine0.nonCoherent (.single (oneLine .exclusive)) sinkPorts () 1
    (endState (writeLine0.nonCoherent (.single (oneLine .exclusive)) sinkPorts () 1
      (.init (.single (oneLine .exclusive)))))) (by decide +kernel)
  obtain ⟨l, hl, hkept⟩ := hfirst _ hread
  have hempty : l = [] := by
    refine List.append_left_eq_self.1 (hl.symm.trans ?_)
    decide +kernel
  rcases hkept 0 ⟨⟨0, 0⟩, by decide, by decide +kernel, by decide +kernel, by decide +kernel⟩ with
    ⟨⟨i, w⟩, hi, hw, -, hst⟩ | ⟨e, he, -⟩
  · obtain rfl : i = 0 := Nat.lt_one_iff.1 hi
    obtain rfl : w = 0 := Nat.lt_one_iff.1 hw
    revert hst
    decide +kernel
  · rw [hempty] at he
    cases he

end Vpsim.Memory
