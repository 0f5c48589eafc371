import Vpsim.Memory.TwoLevels
import Vpsim.Memory.CpuSpec

/-!
# Accesses of two levels

The lower cache erases the writer of a line from `Sharers`, also where the writer keeps the line and only
passes the write on. As long as the lower cache replaces no line that an upper cache has modified, `Sharers`
names every upper cache that has a line without having written it, which is enough to take each replaced line
out of the upper caches.
-/

namespace Vpsim.Memory

open Vpsim.Lib

/-! ## What an operation of one cache leaves -/

section Beside

variable {ι : Type} {r : ι} {s s' : State ι}

/-- The other caches and `Sharers` are the same. -/
structure Beside (r : ι) (s s' : State ι) : Prop where
  cache : ∀ r', r' ≠ r → s'.cache r' = s.cache r'
  sharers : (s'.cache r).sharers = (s.cache r).sharers

instance : IsPreorder (State ι) (Beside r) where
  refl _ := ⟨fun _ _ => rfl, rfl⟩
  trans _ _ _ h h' := ⟨fun r' hr => (h'.cache r' hr).trans (h.cache r' hr), h'.sharers.trans h.sharers⟩

theorem Beside.of_cache_eq (h : s'.cache = s.cache) : Beside r s s' where
  cache r' _ := by rw [h]
  sharers := by rw [h]

variable [DecidableEq ι] {pl : Platform ι}

theorem modifyCache_of_ne {r' : ι} (hr : r' ≠ r) (f : Cache → Cache) : (s.modifyCache r f).cache r' = s.cache r' :=
  Function.update_of_ne hr _ _

theorem beside_modifyCache {f : Cache → Cache} (hf : (f (s.cache r)).sharers = (s.cache r).sharers) :
    Beside r s (s.modifyCache r f) where
  cache _ hr := modifyCache_of_ne hr f
  sharers := by
    rw [State.modifyCache_cache]
    exact hf

theorem keeps_setState_beside (p : LineRef) (x : CoherenceState) : Keeps (Beside r) (setState r p x) :=
  Keeps.modify fun _ => beside_modifyCache rfl

theorem keeps_setNewLine_beside (p : LineRef) (a t handle : ℕ) : Keeps (Beside r) (setNewLine r p a t handle) :=
  Keeps.modify fun _ => beside_modifyCache rfl

end Beside

namespace TwoLevels

variable {n : ℕ} {L : TwoLevels n} {live live' : Set (LevelRef n × LineRef × ℕ)} {v v' : View (LevelRef n)}
  {sh : ℕ → Finset ℕ} {s s' : State (LevelRef n)} {r : LevelRef n} {j k : Fin n} {p : LineRef} {a b : ℕ}

/-- How a watched run may stop: at an assertion, the watched ones included, or at a cache with the FIFO policy. -/
def Stops (L : TwoLevels n) (e : Stop) (_ : State (LevelRef n)) : Prop :=
  e = .assertion ∨ ∃ r, (L.cfg r).replPolicy = .fifo

theorem failureAllowed : FailureAllowed L.toPlatform L.Stops s := fun _ => .inl rfl

/-- The state has the view `v`, and `Sharers` of the lower cache is `sh`. -/
structure Knows (L : TwoLevels n) (live : Set (LevelRef n × LineRef × ℕ)) (v : View (LevelRef n)) (sh : ℕ → Finset ℕ)
    (s : State (LevelRef n)) : Prop where
  sees : At L.toPlatform L.IsLine live v s
  sharers : (s.cache .lower).sharers = sh

theorem Knows.weaken (h : L.Knows live v sh s) (hsub : live' ⊆ live) : L.Knows live' v sh s :=
  ⟨h.sees.weaken hsub, h.sharers⟩

theorem Knows.beside (h : L.Knows live v sh s) (hb : Beside r s s') (hsees : At L.toPlatform L.IsLine live' v' s') :
    L.Knows live' v' sh s' := by
  refine ⟨hsees, ?_⟩
  rw [← h.sharers]
  by_cases hr : r = .lower
  · subst hr
    exact hb.sharers
  · rw [hb.cache _ (Ne.symm hr)]

/-- An address has the same base in every cache. -/
theorem lineBase_eq (r : LevelRef n) (addr : ℕ) : (L.cfg r).geometry.lineBase addr = L.lineOf addr := by
  rw [Geometry.lineBase, Geometry.offset_eq, Geometry.offsetBits, L.lineSize_eq, log2_two_pow, lineOf]

/-- A line address is its own base. -/
theorem IsLine.lineOf_eq (h : L.IsLine a) : L.lineOf a = a := by
  unfold lineOf
  rw [Nat.mod_eq_zero_of_dvd h.aligned, Nat.sub_zero]

/-- A lookup finds the line of its address if the cache has it. -/
theorem wp_lookup_line {addr : ℕ} {Q : Bool × LineRef → State (LevelRef n) → Prop} (h : L.Knows live v sh s)
    (ha : L.IsLine a) (hbase : L.lineOf addr = a)
    (hhit : ∀ p s', v.st r a ≠ .invalid → L.Knows (insert (r, p, a) live) v sh s' → Beside r s s' → Q (true, p) s')
    (hmiss : ∀ p s', v.st r a = .invalid → L.Knows live v sh s' → Beside r s s' →
      (s.cache r).find (L.cfg r).geometry addr = (false, p) → (s.cache r).SameLines (s'.cache r) →
      (s'.cache r).Way p → p.index = (L.cfg r).geometry.index a → Q (false, p) s') :
    wp (lookup L.toPlatform r addr) Q L.Stops s := by
  have hindex : (L.cfg r).geometry.index addr = (L.cfg r).geometry.index a := by
    rw [← hbase, ← lineBase_eq r, Geometry.index_lineBase]
  have htag : (L.cfg r).geometry.tag addr = (L.cfg r).geometry.tag a := by
    rw [← hbase, ← lineBase_eq r, Geometry.tag_lineBase]
  have hfind : wp (lookup L.toPlatform r addr) (fun res s' => Beside r s s' ∧
      (s.cache r).find (L.cfg r).geometry addr = res ∧ (s.cache r).SameLines (s'.cache r)) L.Stops s := by
    refine wp_lookup_find (fun hf => .inr ⟨r, ?_⟩) fun f hsame hsharers => ⟨beside_modifyCache hsharers, rfl, ?_⟩
    · rw [← (h.sees.wf r).policy, hf]
    · rw [State.modifyCache_cache]
      exact hsame
  have hsees : wp (lookup L.toPlatform r addr) (fun res s' => Beside r s s' ∧
      (s.cache r).find (L.cfg r).geometry addr = res ∧ (s.cache r).SameLines (s'.cache r) → Q res s') L.Stops s := by
    refine wp_lookup h.sees ha hindex htag (fun hf => .inr ⟨r, hf⟩) (fun q s' hvalid h' => ?_) ?_
    · intro ⟨hb, _⟩
      exact hhit q s' hvalid (h.beside hb h') hb
    · intro q s' hinvalid h' hway hq ⟨hb, hres, hsame⟩
      exact hmiss q s' hinvalid (h.beside hb h') hb hres hsame hway hq
  exact (hfind.and hsees).mono fun _ _ h' => h'.2 h'.1

/-- Changing the state of the line of a pointer in use. -/
theorem wp_setState_line {x : CoherenceState} {Q : Unit → State (LevelRef n) → Prop} (h : L.Knows live v sh s)
    (hm : (r, p, a) ∈ live) (ha : L.IsLine a)
    (hQ : ∀ s', L.Knows live (v.setSt r a x) sh s' → Beside r s s' → Q () s') : wp (setState r p x) Q L.Stops s :=
  (keeps_setState_beside p x).wp_of_imp (wp_setState h.sees hm ha fun s' h' hb => hQ s' (h.beside hb h') hb)

/-- The eviction notification is outside the view. -/
theorem wp_notify {isHit : Bool} {Q : Unit → State (LevelRef n) → Prop} (h : L.Knows live v sh s)
    (hQ : ∀ s', L.Knows live v sh s' → s'.cache = s.cache → Q () s') :
    wp (notifyVictim L.toPlatform r isHit p) Q L.Stops s :=
  wp_notifyVictim h.sees fun s' hc h' => hQ s' (h.beside (r := .lower) (.of_cache_eq hc) h') hc

/-- A recorded transfer leaves the caches alone. -/
theorem wp_emit_line {ev : Event} {Q : Unit → State (LevelRef n) → Prop} (h : L.Knows live v sh s)
    (hQ : ∀ s', L.Knows live (v.emit ev) sh s' → s'.cache = s.cache → Q () s') : wp (emit ev) Q L.Stops s :=
  wp_emit_cache h.sees fun s' hc h' => hQ s' (h.beside (r := .lower) (.of_cache_eq hc) h') hc

/-- A new line takes at most the line of its place out of the cache. -/
theorem wp_newLine {handle addr : ℕ} {Q : Unit → State (LevelRef n) → Prop} (h : L.Knows live v sh s)
    (hfree : ∀ q b, (r, q, b) ∉ live) (hway : (s.cache r).Way p) (hindex : p.index = (L.cfg r).geometry.index a)
    (habsent : v.st r a = .invalid) (hbase : L.lineOf addr = a)
    (hQ : ∀ v' s', L.Knows (insert (r, p, a) live) v' sh s' →
      (∀ r' b, v'.st r' b = v.st r' b ∨ r' = r ∧ ((s.cache r).line p).Valid ∧ b = ((s.cache r).line p).address ∧
        v'.st r' b = .invalid) → Q () s') :
    wp (allocate L.toPlatform r false p ((L.cfg r).geometry.lineBase addr) addr handle) Q L.Stops s := by
  have htag : (L.cfg r).geometry.tag addr = (L.cfg r).geometry.tag a := by
    rw [← hbase, ← lineBase_eq r, Geometry.tag_lineBase]
  refine wp_runIf_pos ⟨rfl, L.writeAllocate r⟩ ?_
  rw [lineBase_eq, hbase, htag]
  refine (keeps_setNewLine_beside _ _ _ _).wp_of_imp ?_
  rcases h.sees.victim hway with hvacant | ⟨w, -, hvalid, hw⟩
  · refine wp_setNewLine_of_invalid h.sees hfree hway hindex habsent hvacant fun s' h' hb => ?_
    exact hQ v s' (h.beside hb h') fun _ _ => .inl rfl
  · have hm : (r, p, w) ∈ insert (r, p, w) live := Set.mem_insert _ _
    refine wp_setNewLine_of_owns hw hfree hindex habsent fun s' h' hb => ?_
    refine hQ _ s' (h.beside hb h') fun r' b => ?_
    rw [View.setSt_st]
    split
    · rename_i hrb
      refine .inr ⟨hrb.1, ?_, hrb.2.trans (hw.line_address hm).symm, rfl⟩
      rw [CacheLine.Valid, hw.line_state hm]
      exact hvalid
    · exact .inl rfl

/-- Changing `Sharers` of a cache changes no line. -/
theorem at_sharersModify (h : At L.toPlatform L.IsLine live v s) (f : Finset ℕ → Finset ℕ) :
    At L.toPlatform L.IsLine live v (s.modifyCache r fun c =>
      { c with sharers := Function.update c.sharers a (f (c.sharers a)) }) := by
  have hsame : (s.cache r).SameLines { s.cache r with
      sharers := Function.update (s.cache r).sharers a (f ((s.cache r).sharers a)) } :=
    ⟨fun _ => ⟨rfl, rfl, fun _ => rfl⟩, rfl⟩
  refine h.modifyCache _ (hsame.wf (h.wf r)) (fun q b hq => hsame.owns (h.owns r q b hq)) ?_
  rw [view_modifyCache_st h _ rfl hsame.stateOf_eq]
  obtain ⟨st, dir, trace⟩ := v
  congr 1
  funext r' b
  by_cases hr : r' = r
  · subst hr
    rw [if_pos rfl, h.st_eq]
  · rw [if_neg hr]

/-- Changing `Sharers` of the lower cache changes what is known of it. -/
theorem wp_sharersModify_lower {f : Finset ℕ → Finset ℕ} {Q : Unit → State (LevelRef n) → Prop}
    (h : L.Knows live v sh s)
    (hQ : ∀ s', L.Knows live v (Function.update sh a (f (sh a))) s' → (s'.cache .lower).sets = (s.cache .lower).sets →
      Q () s') : wp (sharersModify .lower a f) Q L.Stops s := by
  refine hQ _ ⟨at_sharersModify h.sees f, ?_⟩ ?_
  · rw [State.modifyCache_cache, h.sharers]
  · rw [State.modifyCache_cache]

/-- Changing `Sharers` of an upper cache is beside the point. -/
theorem wp_sharersModify_upper {f : Finset ℕ → Finset ℕ} {Q : Unit → State (LevelRef n) → Prop}
    (h : L.Knows live v sh s) (hQ : ∀ s', L.Knows live v sh s' → Q () s') :
    wp (sharersModify (.upper j) a f) Q L.Stops s := by
  refine hQ _ ⟨at_sharersModify h.sees f, ?_⟩
  rw [← h.sharers]
  have hne : (LevelRef.lower : LevelRef n) ≠ .upper j := nofun
  exact congrArg Cache.sharers (modifyCache_of_ne hne _)

/-! ## The parts of an activation -/

variable {io : DataPorts (LevelRef n)} {mode : CoherenceCommand} {size addr initiatorId handle : ℕ}
  {Q : Option ℕ → State (LevelRef n) → Prop}

/-- What is left of an access after the line `a`: nothing, or what comes after so many bytes. -/
def rest (L : TwoLevels n) (a addr size : ℕ) : Option ℕ :=
  if 2 ^ L.lineBits < add64 (sub64 addr a) size then some (sub64 (2 ^ L.lineBits) (sub64 addr a)) else none

/-- After the allocation the line is served. -/
theorem wp_serve {isHit : Bool} (h : L.Knows live v sh s) (hm : (r, p, a) ∈ live)
    (hserve : ∀ accessSize, wp (nonCoherentServe L.toPlatform io r mode isHit p addr accessSize initiatorId)
      (fun _ => Q (L.rest a addr size)) L.Stops s) :
    wp (do
      let line ← getLine r p
      let used := sub64 addr line.address
      let alignment := (L.cfg r).geometry.cacheLineSize < add64 used size
      let accessSize := if alignment then sub64 (L.cfg r).geometry.cacheLineSize used else size
      check L.toPlatform (accessSize ≤ (L.cfg r).geometry.cacheLineSize)
      nonCoherentServe L.toPlatform io r mode isHit p addr accessSize initiatorId
      return if alignment then some accessSize else none) Q L.Stops s := by
  refine .step (wp_getLine h.sees hm fun line haddr _ => ?_)
  rw [haddr, L.lineSize_eq]
  refine .step (wp_check (.inr failureAllowed) (.bind (hserve _) fun _ s' h' => ?_))
  unfold rest at h'
  change Q _ s'
  split at h'
  · rename_i hmore
    rw [if_pos hmore, if_pos hmore]
    exact h'
  · rename_i hmore
    rw [if_neg hmore]
    exact h'

/-- A read or a write that hits serves the line. -/
theorem wp_hit (h : L.Knows live v sh s) (hm : (r, p, a) ∈ live) (hmode : mode = .read ∨ mode = .write)
    (hserve : ∀ accessSize, wp (nonCoherentServe L.toPlatform io r mode true p addr accessSize initiatorId)
      (fun _ => Q (L.rest a addr size)) L.Stops s) :
    wp (nonCoherentAt L.toPlatform io r mode true p size addr initiatorId handle) Q L.Stops s := by
  unfold nonCoherentAt
  have hinvalidate : mode ≠ .invalidate := by rcases hmode with rfl | rfl <;> decide
  have hreadBack : mode ≠ .readBack := by rcases hmode with rfl | rfl <;> decide
  refine .ite_neg hinvalidate (.ite_neg hreadBack (.ite_neg (by simp) ?_))
  refine .step (wp_getLine_any (.step (wp_check (.inr failureAllowed) ?_)))
  refine .bind nonCoherentReplace_hit fun _ s' hs' => ?_
  subst hs'
  exact .step (wp_runIf_neg (by simp) (wp_serve h hm hserve))

/-! ## Writes of the lower cache -/

variable {depth : ℕ}

/-- The ports of an upper cache in a watched run. -/
abbrev watchedPorts (L : TwoLevels n) (depth : ℕ) (j : Fin n) : DataPorts (LevelRef n) :=
  L.upperPorts (L.lowerPorts L.watch depth) L.watch j

/-- The lower cache records its transfers with the memory. -/
theorem lowerPorts_memory (before : ℕ → CacheM (LevelRef n) Unit) (depth : ℕ) :
    (L.lowerPorts before depth).forwardReadData = sinkPorts.forwardReadData ∧
      (L.lowerPorts before depth).forwardWriteData = sinkPorts.forwardWriteData ∧
        (L.lowerPorts before depth).forwardEvict = sinkPorts.forwardEvict := by
  cases depth <;> exact ⟨rfl, rfl, rfl⟩

/-- The access of a whole line ends with it. -/
theorem IsLine.rest_eq_none (h : L.IsLine a) : L.rest a a (2 ^ L.lineBits) = none := by
  have hlt := h.lt
  unfold addressBits at hlt
  have hused : sub64 a a = 0 := by
    unfold sub64
    omega
  unfold rest
  rw [hused, if_neg]
  unfold add64
  rw [Nat.zero_add]
  exact Nat.not_lt.2 (Nat.mod_le _ _)

/-- A transfer of an upper cache is one activation of the lower one. -/
theorem wp_toLower {Q : Unit → State (LevelRef n) → Prop} (ha : L.IsLine a)
    (hline : ¬ L.Displaces s a → wp (accessNonCoherentLine L.toPlatform (L.lowerPorts L.watch depth) .lower mode
      (2 ^ L.lineBits) a (L.upperId j) 0) (fun res s' => res = L.rest a a (2 ^ L.lineBits) ∧ Q () s') L.Stops s) :
    wp (L.toLower (L.lowerPorts L.watch depth) L.watch j mode a (2 ^ L.lineBits)) Q L.Stops s := by
  refine .step (.step ?_)
  rw [wp_get]
  by_cases hdisplaces : L.Displaces s a
  · exact .ite_pos hdisplaces (.inl rfl)
  · refine .ite_neg hdisplaces (.bind (hline hdisplaces) fun res s' ⟨hres, hQ⟩ => ?_)
    rw [hres, ha.rest_eq_none]
    exact hQ

/-- A write of a line that the lower cache has marks the line and erases the writer from its sharers. -/
theorem lowerWrite_spec {Q : Unit → State (LevelRef n) → Prop} (h : L.Knows live v sh s) (ha : L.IsLine a)
    (hst : v.st .lower a ≠ .invalid)
    (hQ : ∀ v' s', L.Knows live v' (Function.update sh a ((sh a).erase (L.upperId j))) s' →
      v'.st = (v.setSt .lower a .modified).st → Q () s') :
    wp ((L.watchedPorts depth j).forwardWriteData a
      (L.cfg (.upper j)).geometry.cacheLineSize) Q L.Stops s := by
  rw [L.lineSize_eq]
  refine wp_toLower ha fun _ => .step (wp_lookup_line h ha ha.lineOf_eq (fun p s₁ _ h₁ _ => ?_) ?_)
  · have hp : (LevelRef.lower, p, a) ∈ insert (.lower, p, a) live := Set.mem_insert _ _
    refine .step (wp_getLine_any (.step (wp_check (.inr failureAllowed) (.step ?_))))
    refine wp_notify h₁ fun s₂ h₂ _ => wp_hit h₂ hp (.inr rfl) fun accessSize => ?_
    refine .step (wp_getLine h₂.sees hp fun line haddr _ => .step ?_)
    rw [haddr]
    refine wp_sharersModify_lower h₂ fun s₃ h₃ _ => .step (.step (wp_getLine_any ?_))
    refine .ite_neg (by simp) (.ite_neg (by simp [L.writeBack]) (.step (wp_runIf_neg (by simp) ?_)))
    refine wp_setState_line h₃ hp ha fun s₄ h₄ _ => .step (wp_getLine_any (wp_runIf (fun _ => ?_) fun _ => ?_))
    · rw [(lowerPorts_memory L.watch depth).2.1]
      exact wp_emit_line h₄ fun s₅ h₅ _ => ⟨rfl, hQ _ s₅ (h₅.weaken (Set.subset_insert _ _)) rfl⟩
    · exact ⟨rfl, hQ _ s₄ (h₄.weaken (Set.subset_insert _ _)) rfl⟩
  · exact fun p s₁ hinvalid => absurd hinvalid hst

/-! ## The invariant -/

/-- The lower cache has the lines of the upper caches, and `Sharers` names the upper caches that have a line
without having written it. -/
structure Inv (L : TwoLevels n) (v : View (LevelRef n)) (sh : ℕ → Finset ℕ) : Prop where
  present : ∀ {j a}, v.st (.upper j) a ≠ .invalid → v.st .lower a ≠ .invalid
  listed : ∀ {j a}, v.st (.upper j) a = .shared → L.upperId j ∈ sh a
  clean : ∀ {j a}, L.upperId j ∈ sh a → v.st (.upper j) a ≠ .modified
  isLine : ∀ {a}, (sh a).Nonempty → L.IsLine a

/-- The upper caches have lost lines and are the same otherwise. -/
def Loses (v v' : View (LevelRef n)) : Prop :=
  ∀ j b, v'.st (.upper j) b = v.st (.upper j) b ∨ v'.st (.upper j) b = .invalid

theorem Loses.of_invalid (h : Loses v v') (hst : v.st (.upper j) a = .invalid) : v'.st (.upper j) a = .invalid :=
  (h j a).elim (fun heq => heq.trans hst) id

theorem Loses.eq_of_valid (h : Loses v v') (hst : v'.st (.upper j) a ≠ .invalid) :
    v'.st (.upper j) a = v.st (.upper j) a :=
  (h j a).resolve_right hst

theorem Loses.trans {v'' : View (LevelRef n)} (h : Loses v v') (h' : Loses v' v'') : Loses v v'' := by
  intro j b
  rcases h' j b with heq | hinvalid
  · rw [heq]
    exact h j b
  · exact .inr hinvalid

namespace Inv

variable {w : ℕ}

/-- The upper caches may lose lines, and the lower one lines that no upper cache has. -/
theorem lose (h : L.Inv v sh) (hloses : Loses v v')
    (hlower : ∀ k b, v'.st (.upper k) b ≠ .invalid → v.st .lower b ≠ .invalid → v'.st .lower b ≠ .invalid) :
    L.Inv v' sh where
  present {k b} hk := hlower k b hk (h.present (hloses.eq_of_valid hk ▸ hk))
  listed {k b} hk := by
    have hvalid : v'.st (.upper k) b ≠ .invalid := by simp [hk]
    exact h.listed ((hloses.eq_of_valid hvalid).symm.trans hk)
  clean {k b} hk := by
    rcases hloses k b with heq | hinvalid
    · rw [heq]
      exact h.clean hk
    · simp [hinvalid]
  isLine := h.isLine

/-- A line that its sharers have lost has none any more. -/
theorem recalled (h : L.Inv v sh) (hgone : ∀ k, L.upperId k ∈ sh w → v.st (.upper k) w = .invalid) :
    L.Inv v (Function.update sh w ∅) where
  present := h.present
  listed {k b} hk := by
    by_cases hb : b = w
    · subst hb
      rw [hgone k (h.listed hk)] at hk
      cases hk
    · rw [Function.update_of_ne hb]
      exact h.listed hk
  clean {k b} hk := by
    by_cases hb : b = w
    · subst hb
      simp at hk
    · rw [Function.update_of_ne hb] at hk
      exact h.clean hk
  isLine {b} hb := by
    by_cases hbw : b = w
    · subst hbw
      simp at hb
    · rw [Function.update_of_ne hbw] at hb
      exact h.isLine hb

/-- The lower cache may get a line. -/
theorem fill (h : L.Inv v sh) {x : CoherenceState} (hx : x ≠ .invalid) : L.Inv (v.setSt .lower a x) sh where
  present {k b} hk := by
    by_cases hb : b = a
    · subst hb
      rwa [View.setSt_at]
    · rw [View.setSt_st, if_neg (fun hc => hb hc.2)]
      exact h.present (by simpa using hk)
  listed hk := h.listed (by simpa using hk)
  clean hk := by simpa using h.clean hk
  isLine := h.isLine

/-- A reader that has not modified the line may be listed. -/
theorem enlist (h : L.Inv v sh) (ha : L.IsLine a) (hj : v.st (.upper j) a ≠ .modified) :
    L.Inv v (Function.update sh a (insert (L.upperId j) (sh a))) where
  present := h.present
  listed {k b} hk := by
    by_cases hb : b = a
    · subst hb
      rw [Function.update_self]
      exact Finset.mem_insert_of_mem (h.listed hk)
    · rw [Function.update_of_ne hb]
      exact h.listed hk
  clean {k b} hk := by
    by_cases hb : b = a
    · subst hb
      rw [Function.update_self] at hk
      rcases Finset.mem_insert.1 hk with hid | hk
      · rwa [L.id_injective hid]
      · exact h.clean hk
    · rw [Function.update_of_ne hb] at hk
      exact h.clean hk
  isLine {b} hb := by
    by_cases hba : b = a
    · rwa [hba]
    · rw [Function.update_of_ne hba] at hb
      exact h.isLine hb

/-- A listed reader may have the line shared if the lower cache has it. -/
theorem share (h : L.Inv v sh) (hlower : v.st .lower a ≠ .invalid) (hid : L.upperId j ∈ sh a) :
    L.Inv (v.setSt (.upper j) a .shared) sh where
  present {k b} hk := by
    by_cases hb : b = a
    · subst hb
      simpa using hlower
    · rw [View.setSt_st, if_neg (fun hc => hb hc.2)] at hk
      simpa using h.present hk
  listed {k b} hk := by
    by_cases hkb : LevelRef.upper k = .upper j ∧ b = a
    · obtain ⟨hk', rfl⟩ := hkb
      cases hk'
      exact hid
    · rw [View.setSt_st, if_neg hkb] at hk
      exact h.listed hk
  clean {k b} hk := by
    rw [View.setSt_st]
    split
    · simp
    · exact h.clean hk
  isLine := h.isLine

/-- The writer of a line is no longer listed, if it has the line modified or not at all. -/
theorem delist (h : L.Inv v sh) {x : CoherenceState} (hx : x ≠ .shared)
    (hst : v'.st = ((v.setSt (.upper j) a x).setSt .lower a .modified).st) :
    L.Inv v' (Function.update sh a ((sh a).erase (L.upperId j))) where
  present {k b} hk := by
    rw [hst] at hk ⊢
    by_cases hb : b = a
    · subst hb
      rw [View.setSt_at]
      simp
    · have hk' : v.st (.upper k) b ≠ .invalid := by simpa [hb] using hk
      simpa [hb] using h.present hk'
  listed {k b} hk := by
    rw [hst] at hk
    by_cases hb : b = a
    · subst hb
      rw [Function.update_self]
      by_cases hkj : k = j
      · subst hkj
        exact absurd (by simpa using hk) hx
      · have hk' : v.st (.upper k) b = .shared := by simpa [hkj] using hk
        exact Finset.mem_erase.2 ⟨fun hid => hkj (L.id_injective hid), h.listed hk'⟩
    · rw [Function.update_of_ne hb]
      exact h.listed (by simpa [hb] using hk)
  clean {k b} hk := by
    rw [hst]
    by_cases hb : b = a
    · subst hb
      rw [Function.update_self] at hk
      obtain ⟨hid, hk⟩ := Finset.mem_erase.1 hk
      have hkj : k ≠ j := fun heq => hid (heq ▸ rfl)
      simpa [hkj] using h.clean hk
    · rw [Function.update_of_ne hb] at hk
      simpa [hb] using h.clean hk
  isLine {b} hb := by
    by_cases hba : b = a
    · subst hba
      rw [Function.update_self] at hb
      exact h.isLine (hb.mono (Finset.erase_subset _ _))
    · rw [Function.update_of_ne hba] at hb
      exact h.isLine hb

end Inv

/-! ## Replacement in the lower cache -/

/-- An upper cache gives up a line that it has not modified, if its id is listed. -/
theorem toUpper_spec {before : ℕ → CacheM (LevelRef n) Unit} {ids : Finset ℕ} {Q : Unit → State (LevelRef n) → Prop}
    (h : L.Knows live v sh s) (ha : L.IsLine a) (hclean : L.upperId j ∈ ids → v.st (.upper j) a ≠ .modified)
    (hQ : ∀ v' s', L.Knows live v' sh s' → s'.cache .lower = s.cache .lower →
      (L.upperId j ∈ ids → v'.st (.upper j) a = .invalid) →
      (∀ r b, v'.st r b = v.st r b ∨ r = .upper j ∧ v'.st r b = .invalid) → Q () s') :
    wp (L.toUpper io before a ids j) Q L.Stops s := by
  have hne : (LevelRef.lower : LevelRef n) ≠ .upper j := nofun
  refine wp_runIf (fun hlisted => .step (.step ?_)) fun hlisted => hQ v s h rfl (absurd · hlisted) fun _ _ => .inl rfl
  refine wp_lookup_line h ha ha.lineOf_eq (fun p s₁ _ h₁ hb₁ => ?_) fun p s₁ hinvalid h₁ hb₁ _ _ _ _ => ?_
  · have hp : (LevelRef.upper j, p, a) ∈ insert (.upper j, p, a) live := Set.mem_insert _ _
    refine .step (wp_getLine_any (.step (wp_check (.inr failureAllowed) (.step ?_))))
    refine wp_notify h₁ fun s₂ h₂ hc₂ => .ite_pos rfl (.step (wp_runIf_pos rfl (.step ?_)))
    refine wp_getLine h₂.sees hp fun line _ hst => .step (wp_runIf_neg (hst ▸ hclean hlisted) ?_)
    refine wp_setState_line h₂ hp ha fun s₃ h₃ hb₃ => ?_
    refine hQ _ s₃ (h₃.weaken (Set.subset_insert _ _)) ?_ (fun _ => View.setSt_at) fun r b => ?_
    · rw [hb₃.cache _ hne, hc₂, hb₁.cache _ hne]
    · rw [View.setSt_st]
      split
      · rename_i hrb
        exact .inr ⟨hrb.1, rfl⟩
      · exact .inl rfl
  · refine .step (wp_getLine_any (.step (wp_check (.inr failureAllowed) (.step ?_))))
    refine wp_notify h₁ fun s₂ h₂ hc₂ => .ite_pos rfl (.step (wp_runIf_neg (by simp) ?_))
    exact hQ v s₂ h₂ (by rw [hc₂, hb₁.cache _ hne]) (fun _ => hinvalid) fun _ _ => .inl rfl

/-- The caches that a replaced line is shared by lose it. -/
theorem backInvalidate_spec {before : ℕ → CacheM (LevelRef n) Unit} (hdepth : 0 < depth)
    {Q : Unit → State (LevelRef n) → Prop} (h : L.Knows live v sh s) (ha : L.IsLine a)
    (hclean : ∀ k, L.upperId k ∈ sh a → v.st (.upper k) a ≠ .modified)
    (hQ : ∀ v' s', L.Knows live v' sh s' → s'.cache .lower = s.cache .lower → Loses v v' →
      (∀ k, L.upperId k ∈ sh a → v'.st (.upper k) a = .invalid) → v'.st .lower = v.st .lower → Q () s') :
    wp ((L.lowerPorts before depth).backInvalidate a (sh a)) Q L.Stops s := by
  obtain ⟨depth, rfl⟩ : ∃ d, depth = d + 1 := ⟨depth - 1, by omega⟩
  -- The caches that the loop has passed no longer have the line.
  refine .mono (wp_forM (L.toUpper (L.lowerPorts before depth) before a (sh a)) (fun rest s' => ∃ v',
    L.Knows live v' sh s' ∧ s'.cache .lower = s.cache .lower ∧ Loses v v' ∧ v'.st .lower = v.st .lower ∧
      ∀ k ∉ rest, L.upperId k ∈ sh a → v'.st (.upper k) a = .invalid) ?_
    ⟨v, h, rfl, fun _ _ => .inl rfl, rfl, fun k hk => absurd (List.mem_finRange k) hk⟩) ?_
  · rintro k rest s₁ ⟨v₁, h₁, hc₁, hloses, hlower, hgone⟩
    refine toUpper_spec h₁ ha (fun hid hm => ?_) fun v₂ s₂ h₂ hc₂ hk hst => ?_
    · have hvalid : v₁.st (.upper k) a ≠ .invalid := by simp [hm]
      exact hclean k hid ((hloses.eq_of_valid hvalid).symm.trans hm)
    · have hloses₂ : Loses v₁ v₂ := fun i b => (hst (.upper i) b).imp_right And.right
      refine ⟨v₂, h₂, hc₂.trans hc₁, hloses.trans hloses₂, ?_, fun i hi hid => ?_⟩
      · rw [← hlower]
        funext b
        exact (hst .lower b).resolve_right (by simp)
      · by_cases hik : i = k
        · subst hik
          exact hk hid
        · exact hloses₂.of_invalid (hgone i (by simp [hik, hi]) hid)
  · rintro - s₁ ⟨v₁, h₁, hc₁, hloses, hlower, hgone⟩
    exact hQ v₁ s₁ h₁ hc₁ hloses (fun k hid => hgone k (by simp) hid) hlower

/-- The end of a replacement: the upper caches lose the line and its sharers are cleared. -/
theorem recall_spec {before : ℕ → CacheM (LevelRef n) Unit} (hdepth : 0 < depth) {w : ℕ}
    {Q : Unit → State (LevelRef n) → Prop} (h : L.Knows live v sh s) (hw : ((s.cache .lower).line p).address = w)
    (hline : (sh w).Nonempty → L.IsLine w) (hclean : ∀ k, L.upperId k ∈ sh w → v.st (.upper k) w ≠ .modified)
    (hQ : ∀ v' s', L.Knows live v' (Function.update sh w ∅) s' → (s'.cache .lower).sets = (s.cache .lower).sets →
      Loses v v' → (∀ k, L.upperId k ∈ sh w → v'.st (.upper k) w = .invalid) → v'.st .lower = v.st .lower → Q () s') :
    wp (runIf ((L.cfg .lower).inclusionOfHigher = .inclusive ∧ false = false) do
      let line ← getLine .lower p
      let ids ← sharersOf .lower line.address
      runIf (ids.card ≠ 0) do
        (L.lowerPorts before depth).backInvalidate line.address ids
        let line ← getLine .lower p
        sharersModify .lower line.address fun _ => ∅) Q L.Stops s := by
  refine wp_runIf_pos ⟨L.lower_higher, rfl⟩ (.step (wp_getLine_any (.step ?_)))
  rw [hw]
  change wp (runIf (((s.cache .lower).sharers w).card ≠ 0) _) Q L.Stops s
  rw [h.sharers]
  refine wp_runIf (fun hcard => ?_) fun hcard => ?_
  · have ha : L.IsLine w := hline (Finset.card_ne_zero.1 hcard)
    refine .step (backInvalidate_spec hdepth h ha hclean fun v₁ s₁ h₁ hc₁ hloses hgone hlower => ?_)
    refine .step (wp_getLine_any ?_)
    rw [hc₁, hw]
    refine wp_sharersModify_lower h₁ fun s₂ h₂ hsets => ?_
    exact hQ v₁ s₂ h₂ (hsets.trans (congrArg Cache.sets hc₁)) hloses hgone hlower
  · have hempty : sh w = ∅ := Finset.card_eq_zero.1 (not_not.1 hcard)
    refine hQ v s ?_ rfl (fun _ _ => .inl rfl) (fun k hk => by simp [hempty] at hk) rfl
    rwa [← hempty, Function.update_eq_self]

/-- A replacement of the lower cache, of a line that no upper cache has modified, takes the line out of the upper
caches. -/
theorem lowerReplace_spec {before : ℕ → CacheM (LevelRef n) Unit} (hdepth : 0 < depth)
    {Q : Unit → State (LevelRef n) → Prop} (h : L.Knows live v sh s) (hinv : L.Inv v sh) (hway : (s.cache .lower).Way p)
    (hspares : ((s.cache .lower).line p).Valid → ∀ k, v.st (.upper k) ((s.cache .lower).line p).address ≠ .modified)
    (hQ : ∀ v' sh' s', L.Knows live v' sh' s' → L.Inv v' sh' → Loses v v' →
      (∀ b, v.st .lower b = .invalid → v'.st .lower b = .invalid) → (s'.cache .lower).Way p →
      (((s'.cache .lower).line p).Valid → ∀ k, v'.st (.upper k) ((s'.cache .lower).line p).address = .invalid) →
      Q () s') :
    wp (nonCoherentReplace L.toPlatform (L.lowerPorts before depth) .lower false p) Q L.Stops s := by
  obtain ⟨w, hw⟩ : ∃ w, ((s.cache .lower).line p).address = w := ⟨_, rfl⟩
  rw [hw] at hspares
  have hend {v₁ s₁} (h₁ : L.Knows live v₁ sh s₁) (hupper : ∀ k, v₁.st (.upper k) = v.st (.upper k))
      (hlower : ∀ b, v₁.st .lower b = v.st .lower b ∨ b = w ∧ v₁.st .lower b = .invalid)
      (hway₁ : (s₁.cache .lower).Way p) (hw₁ : ((s₁.cache .lower).line p).address = w)
      (hvacant : ((s₁.cache .lower).line p).Valid ∨ v₁.st .lower w ≠ v.st .lower w → ((s.cache .lower).line p).Valid) :
      wp (runIf ((L.cfg .lower).inclusionOfHigher = .inclusive ∧ false = false) do
        let line ← getLine .lower p
        let ids ← sharersOf .lower line.address
        runIf (ids.card ≠ 0) do
          (L.lowerPorts before depth).backInvalidate line.address ids
          let line ← getLine .lower p
          sharersModify .lower line.address fun _ => ∅) Q L.Stops s₁ := by
    have hclean (k) (hk : L.upperId k ∈ sh w) : v₁.st (.upper k) w ≠ .modified := by
      rw [hupper k]
      exact hinv.clean hk
    refine recall_spec hdepth h₁ hw₁ hinv.isLine hclean fun v₂ s₂ h₂ hsets hloses hgone hlower₂ => ?_
    have hloses' : Loses v v₂ := fun k b => by
      rw [← hupper k]
      exact hloses k b
    -- A line that was there is shared by no upper cache that is not listed, and modified by none.
    have hall (hvalid : ((s.cache .lower).line p).Valid) (k : Fin n) : v₂.st (.upper k) w = .invalid := by
      by_contra hk
      have heq := hloses'.eq_of_valid hk
      cases hx : v₂.st (.upper k) w with
      | invalid => exact hk hx
      | shared => exact hk (hgone k (hinv.listed (heq.symm.trans hx)))
      | modified => exact hspares hvalid k (heq.symm.trans hx)
    have hinv₂ : L.Inv v₂ (Function.update sh w ∅) := by
      refine (hinv.lose hloses' fun k b hk hb => ?_).recalled hgone
      rw [hlower₂]
      rcases hlower b with heq | ⟨rfl, hinvalid⟩
      · rwa [heq]
      · have hne : v₁.st .lower b ≠ v.st .lower b := fun heq => hb (heq.symm.trans hinvalid)
        exact absurd (hall (hvacant (.inr hne)) k) hk
    have hcache : (s₂.cache .lower).line p = (s₁.cache .lower).line p := by
      unfold Cache.line
      rw [hsets]
    refine hQ v₂ _ s₂ h₂ hinv₂ hloses' (fun b hb => ?_) ?_ fun hvalid k => ?_
    · rw [hlower₂]
      exact (hlower b).elim (fun heq => heq.trans hb) And.right
    · unfold Cache.Way at hway₁ ⊢
      rwa [hsets]
    · rw [hcache] at hvalid ⊢
      rw [hw₁]
      exact hall (hvacant (.inl hvalid)) k
  obtain ⟨-, hwrite, hevict⟩ := lowerPorts_memory (L := L) before depth
  refine .step (wp_getLine_any (.step ?_))
  by_cases hm : ((s.cache .lower).line p).state = .modified
  · have hvalid : ((s.cache .lower).line p).Valid := by simp [CacheLine.Valid, hm]
    obtain hvacant | ⟨b, hb, hvb, hsees⟩ := h.sees.victim hway
    · exact absurd hvacant hvalid
    have hp : (LevelRef.lower, p, b) ∈ insert (.lower, p, b) live := Set.mem_insert _ _
    obtain rfl : b = w := (hsees.line_address hp).symm.trans hw
    refine wp_runIf_pos ⟨rfl, hm, L.writeBack _⟩ (.step ?_)
    rw [hwrite]
    refine wp_emit_line ⟨hsees, h.sharers⟩ fun s₁ h₁ _ => wp_setState_line h₁ hp hb fun s₂ h₂ _ => ?_
    have hst : ((s₂.cache .lower).line p).state = .invalid := (h₂.sees.line_state hp).trans View.setSt_at
    refine .step (wp_getLine_any (.step (wp_runIf_neg (by simp [hst]) ?_)))
    refine hend (h₂.weaken (Set.subset_insert _ _)) (fun k => ?_) (fun c => ?_) (h₂.sees.owns _ _ _ hp).way
      (h₂.sees.line_address hp) fun _ => hvalid
    · funext c
      simp
    · by_cases hc : c = b
      · exact .inr ⟨hc, by simp [hc]⟩
      · exact .inl (by simp [hc])
  · refine wp_runIf_neg (fun hc => hm hc.2.1) (.step (wp_getLine_any (.step ?_)))
    rw [hevict]
    refine wp_runIf (fun _ => wp_emit_line h fun s₁ h₁ hc₁ => ?_) fun _ => ?_
    · have hcache : s₁.cache .lower = s.cache .lower := congrFun hc₁ _
      refine hend h₁ (fun _ => rfl) (fun _ => .inl rfl) ?_ ?_ fun hor => hor.elim (fun hvalid => ?_) (absurd rfl)
      · rwa [hcache]
      · rwa [hcache]
      · rwa [hcache] at hvalid
    · exact hend h (fun _ => rfl) (fun _ => .inl rfl) hway hw fun hor => hor.elim id (absurd rfl)

/-! ## Reads of the lower cache -/

/-- A read of the lower cache that misses brings the line in and lists the reader. -/
theorem lowerMiss_spec {Q : Option ℕ → State (LevelRef n) → Prop} (hdepth : 0 < depth) (h : L.Knows live v sh s)
    (hinv : L.Inv v sh) (hfree : ∀ q b, (.lower, q, b) ∉ live) (ha : L.IsLine a) (hupper : v.st (.upper j) a = .invalid)
    (habsent : v.st .lower a = .invalid) (hway : (s.cache .lower).Way p)
    (hindex : p.index = (L.cfg .lower).geometry.index a)
    (hspares : ((s.cache .lower).line p).Valid → ∀ k, v.st (.upper k) ((s.cache .lower).line p).address ≠ .modified)
    (hQ : ∀ v' sh' s', L.Knows live v' sh' s' → L.Inv v' sh' → Loses v v' → v'.st .lower a ≠ .invalid →
      L.upperId j ∈ sh' a → Q (L.rest a a (2 ^ L.lineBits)) s') :
    wp (nonCoherentAt L.toPlatform (L.lowerPorts L.watch depth) .lower .read false p (2 ^ L.lineBits) a (L.upperId j) 0)
      Q L.Stops s := by
  refine .ite_neg (by simp) (.ite_neg (by simp) (.ite_neg (by simp [L.lower_higher]) ?_))
  refine .step (wp_getLine_any (.step (wp_check (.inr failureAllowed) (.step ?_))))
  refine lowerReplace_spec hdepth h hinv hway hspares fun v₁ sh₁ s₁ h₁ hinv₁ hloses hlower hway₁ hgone => .step ?_
  refine wp_newLine h₁ hfree hway₁ hindex (hlower a habsent) ha.lineOf_eq fun v₂ s₂ h₂ hst₂ => ?_
  have hsame (k : Fin n) (b : ℕ) : v₂.st (.upper k) b = v₁.st (.upper k) b := (hst₂ _ b).resolve_right (by simp)
  have hloses₂ : Loses v v₂ := fun k b => by
    rw [hsame k b]
    exact hloses k b
  have hinv₂ : L.Inv v₂ sh₁ := by
    refine hinv₁.lose (fun k b => .inl (hsame k b)) fun k b hk hb => ?_
    rcases hst₂ .lower b with heq | ⟨-, hvalid, rfl, -⟩
    · rwa [heq]
    · exact absurd ((hsame k _).trans (hgone hvalid k)) hk
  have hp : (LevelRef.lower, p, a) ∈ insert (.lower, p, a) live := Set.mem_insert _ _
  refine wp_serve h₂ hp fun accessSize => .step (wp_check (.inr failureAllowed) (.step ?_))
  refine wp_getLine h₂.sees hp fun line haddr _ => .step ?_
  rw [haddr]
  refine wp_sharersModify_lower h₂ fun s₃ h₃ _ => .ite_pos rfl (.step ?_)
  rw [(lowerPorts_memory L.watch depth).1]
  refine wp_emit_line h₃ fun s₄ h₄ _ => wp_setState_line h₄ hp ha fun s₅ h₅ _ => ?_
  have hinvalid : v₂.st (.upper j) a ≠ .modified := by simp [hloses₂.of_invalid hupper]
  have hinv₄ : L.Inv (v₂.emit (.transfer .read a (L.cfg .lower).geometry.cacheLineSize)) sh₁ :=
    hinv₂.lose (fun _ _ => .inl rfl) fun _ _ _ hb => hb
  refine hQ _ _ s₅ (h₅.weaken (Set.subset_insert _ _)) ((hinv₄.enlist ha hinvalid).fill (by simp)) (fun k b => ?_)
    ?_ ?_
  · simpa using hloses₂ k b
  · simp
  · simp

/-- A read of an upper cache that does not have the line leaves the lower cache with the line and the reader listed. -/
theorem lowerRead_spec {Q : Unit → State (LevelRef n) → Prop} (hdepth : 0 < depth) (h : L.Knows live v sh s)
    (hinv : L.Inv v sh) (hfree : ∀ q b, (.lower, q, b) ∉ live) (ha : L.IsLine a) (hupper : v.st (.upper j) a = .invalid)
    (hQ : ∀ v' sh' s', L.Knows live v' sh' s' → L.Inv v' sh' → Loses v v' → v'.st .lower a ≠ .invalid →
      L.upperId j ∈ sh' a → Q () s') :
    wp ((L.watchedPorts depth j).forwardReadData a
      (L.cfg (.upper j)).geometry.cacheLineSize) Q L.Stops s := by
  rw [L.lineSize_eq]
  refine wp_toLower ha fun hspares => .step (wp_lookup_line h ha ha.lineOf_eq (fun p s₁ hvalid h₁ _ => ?_) ?_)
  · have hp : (LevelRef.lower, p, a) ∈ insert (.lower, p, a) live := Set.mem_insert _ _
    refine .step (wp_getLine_any (.step (wp_check (.inr failureAllowed) (.step ?_))))
    refine wp_notify h₁ fun s₂ h₂ _ => wp_hit h₂ hp (.inl rfl) fun accessSize => ?_
    refine .step (wp_check (.inr failureAllowed) (.step (wp_getLine h₂.sees hp fun line haddr _ => .step ?_)))
    rw [haddr]
    refine wp_sharersModify_lower h₂ fun s₃ h₃ _ => .ite_neg (by simp) ?_
    refine wp_runIf_neg (by simp [L.lower_higher]) ⟨rfl, ?_⟩
    have hinv₃ := hinv.enlist ha (j := j) (by simp [hupper])
    exact hQ v _ s₃ (h₃.weaken (Set.subset_insert _ _)) hinv₃ (fun _ _ => .inl rfl) hvalid (by simp)
  · intro p s₁ habsent h₁ _ hfind hsame hway hindex
    refine .step (wp_getLine_any (.step (wp_check (.inr failureAllowed) (.step ?_))))
    refine wp_notify h₁ fun s₂ h₂ hc₂ => ?_
    have hline : (s₂.cache .lower).line p = (s.cache .lower).line p := by rw [hc₂, hsame.line]
    refine lowerMiss_spec hdepth h₂ hinv hfree ha hupper habsent (by rwa [hc₂]) hindex (fun hvalid k hm => ?_) ?_
    · rw [hline] at hvalid hm
      rw [← h.sees.st_eq] at hm
      refine hspares ?_
      unfold Displaces
      rw [hfind]
      exact ⟨rfl, hvalid, k, hm⟩
    · exact fun v' sh' s' h' hinv' hloses hst hid => ⟨rfl, hQ v' sh' s' h' hinv' hloses hst hid⟩

/-! ## Accesses of the upper caches -/

/-- A replacement of an upper cache writes a modified line back. -/
theorem upperReplace_spec {Q : Unit → State (LevelRef n) → Prop} (h : L.Knows ∅ v sh s) (hinv : L.Inv v sh)
    (hway : (s.cache (.upper j)).Way p)
    (hQ : ∀ v' sh' s', L.Knows ∅ v' sh' s' → L.Inv v' sh' → Loses v v' → (s'.cache (.upper j)).Way p → Q () s') :
    wp (nonCoherentReplace L.toPlatform (L.watchedPorts depth j) (.upper j) false p)
      Q L.Stops s := by
  have hend {v₁ sh₁ s₁} (h₁ : L.Knows ∅ v₁ sh₁ s₁) (hinv₁ : L.Inv v₁ sh₁) (hloses : Loses v v₁)
      (hway₁ : (s₁.cache (.upper j)).Way p) :
      wp (do
        let line ← getLine (.upper j) p
        runIf (false = false ∧ line.state = .shared ∧ (L.cfg (.upper j)).inclusionOfLower = .exclusive)
          ((L.watchedPorts depth j).forwardEvict line.address
            (L.cfg (.upper j)).geometry.cacheLineSize)
        runIf ((L.cfg (.upper j)).inclusionOfHigher = .inclusive ∧ false = false) do
          let line ← getLine (.upper j) p
          let ids ← sharersOf (.upper j) line.address
          runIf (ids.card ≠ 0) do
            (L.watchedPorts depth j).backInvalidate line.address ids
            let line ← getLine (.upper j) p
            sharersModify (.upper j) line.address fun _ => ∅) Q L.Stops s₁ := by
    refine .step (wp_getLine_any (.step (wp_runIf_neg (by simp [L.upper_lower]) ?_)))
    exact wp_runIf_neg (by simp [L.upper_higher]) (hQ _ _ _ h₁ hinv₁ hloses hway₁)
  refine .step (wp_getLine_any (.step ?_))
  by_cases hm : ((s.cache (.upper j)).line p).state = .modified
  · have hvalid : ((s.cache (.upper j)).line p).Valid := by simp [CacheLine.Valid, hm]
    obtain hvacant | ⟨w, hw, hvw, hsees⟩ := h.sees.victim hway
    · exact absurd hvacant hvalid
    have hp : (LevelRef.upper j, p, w) ∈ insert (.upper j, p, w) (∅ : Set (LevelRef n × LineRef × ℕ)) :=
      Set.mem_insert _ _
    refine wp_runIf_pos ⟨rfl, hm, L.writeBack _⟩ (.step ?_)
    rw [hsees.line_address hp]
    refine lowerWrite_spec ⟨hsees, h.sharers⟩ hw (hinv.present hvw) fun v₁ s₁ h₁ hst₁ => ?_
    refine wp_setState_line h₁ hp hw fun s₂ h₂ _ => ?_
    have hst₂ : (v₁.setSt (.upper j) w .invalid).st =
        ((v.setSt (.upper j) w .invalid).setSt .lower w .modified).st := by
      unfold View.setSt
      rw [hst₁]
      funext r b
      simp only [View.setSt_st]
      by_cases hr : r = .lower <;> simp [hr]
    refine hend (h₂.weaken (Set.empty_subset _)) (hinv.delist (by simp) hst₂) (fun k b => ?_)
      (h₂.sees.owns _ _ _ hp).way
    rw [hst₂]
    by_cases hkb : k = j ∧ b = w
    · exact .inr (by simp [hkb])
    · exact .inl (by simp [hkb])
  · exact wp_runIf_neg (fun hc => hm hc.2.1) (hend h hinv (fun _ _ => .inl rfl) hway)

/-- The read of a line that an upper cache has, or has made room for. -/
theorem upperRead_spec {isHit : Bool} {accessSize : ℕ} {Q : Unit → State (LevelRef n) → Prop} (hdepth : 0 < depth)
    (h : L.Knows live v sh s) (hinv : L.Inv v sh) (hp : (.upper j, p, a) ∈ live) (hfree : ∀ q b, (.lower, q, b) ∉ live)
    (ha : L.IsLine a) (hmiss : isHit = false → v.st (.upper j) a = .invalid)
    (hQ : ∀ v' sh' s', L.Knows live v' sh' s' → L.Inv v' sh' → Q () s') :
    wp (nonCoherentServe L.toPlatform (L.watchedPorts depth j) (.upper j) .read isHit p addr
      accessSize initiatorId) Q L.Stops s := by
  refine .step (wp_check (.inr failureAllowed) (.step (wp_getLine h.sees hp fun line haddr _ => .step ?_)))
  rw [haddr]
  refine wp_sharersModify_upper h fun s₁ h₁ => ?_
  cases isHit with
  | true => exact .ite_neg (by simp) (wp_runIf_neg (by simp [L.upper_higher]) (hQ v sh s₁ h₁ hinv))
  | false =>
    refine .ite_pos rfl (.step ?_)
    refine lowerRead_spec hdepth h₁ hinv hfree ha (hmiss rfl) fun v₂ sh₂ s₂ h₂ hinv₂ _ hlower hid => ?_
    exact wp_setState_line h₂ hp ha fun s₃ h₃ _ => hQ _ sh₂ s₃ h₃ (hinv₂.share hlower hid)

/-- The write of a line that an upper cache has, or has made room for. The line stays there and is passed on. -/
theorem upperWrite_spec {isHit : Bool} {accessSize : ℕ} {Q : Unit → State (LevelRef n) → Prop} (hdepth : 0 < depth)
    (h : L.Knows live v sh s) (hinv : L.Inv v sh) (hp : (.upper j, p, a) ∈ live) (hfree : ∀ q b, (.lower, q, b) ∉ live)
    (ha : L.IsLine a) (hmiss : isHit = false → v.st (.upper j) a = .invalid)
    (hhit : isHit = true → v.st (.upper j) a ≠ .invalid)
    (hQ : ∀ v' sh' s', L.Knows live v' sh' s' → L.Inv v' sh' → Q () s') :
    wp (nonCoherentServe L.toPlatform (L.watchedPorts depth j) (.upper j) .write isHit p addr
      accessSize initiatorId) Q L.Stops s := by
  have hend {v₁ sh₁ s₁} (h₁ : L.Knows live v₁ sh₁ s₁) (hinv₁ : L.Inv v₁ sh₁) (hlower : v₁.st .lower a ≠ .invalid) :
      wp (setState (.upper j) p .modified) (fun _ => wp (do
        let line ← getLine (.upper j) p
        runIf ((L.cfg (.upper j)).inclusionOfLower = .inclusive)
          ((L.watchedPorts depth j).forwardWriteData line.address
            (L.cfg (.upper j)).geometry.cacheLineSize)) Q L.Stops) L.Stops s₁ := by
    refine wp_setState_line h₁ hp ha fun s₂ h₂ _ => .step (wp_getLine h₂.sees hp fun line haddr _ => ?_)
    rw [haddr]
    refine wp_runIf_pos (L.upper_lower j) (lowerWrite_spec h₂ ha (by simpa using hlower) fun v₃ s₃ h₃ hst₃ => ?_)
    exact hQ v₃ _ s₃ h₃ (hinv₁.delist (by simp) hst₃)
  refine .step (wp_getLine h.sees hp fun line haddr _ => .step ?_)
  rw [haddr]
  refine wp_sharersModify_upper h fun s₁ h₁ => .step (.step (wp_getLine h₁.sees hp fun line₁ haddr₁ _ => ?_))
  rw [haddr₁]
  refine .ite_neg (by simp [L.upper_higher]) (.ite_neg (by simp [L.writeBack]) (.step ?_))
  refine wp_runIf (fun hfalse => ?_) fun htrue => ?_
  · refine lowerRead_spec hdepth h₁ hinv hfree ha (hmiss hfalse) fun v₂ sh₂ s₂ h₂ hinv₂ _ hlower _ => ?_
    exact hend h₂ hinv₂ hlower
  · exact hend h₁ hinv (hinv.present (hhit (by simpa using htrue)))

/-- The read or the write of a line that an upper cache has, or has made room for. -/
theorem upperServe_spec {isHit : Bool} {accessSize : ℕ} {Q : Unit → State (LevelRef n) → Prop} (hdepth : 0 < depth)
    (h : L.Knows live v sh s) (hinv : L.Inv v sh) (hp : (.upper j, p, a) ∈ live) (hfree : ∀ q b, (.lower, q, b) ∉ live)
    (ha : L.IsLine a) (hmode : mode = .read ∨ mode = .write) (hmiss : isHit = false → v.st (.upper j) a = .invalid)
    (hhit : isHit = true → v.st (.upper j) a ≠ .invalid)
    (hQ : ∀ v' sh' s', L.Knows live v' sh' s' → L.Inv v' sh' → Q () s') :
    wp (nonCoherentServe L.toPlatform (L.watchedPorts depth j) (.upper j) mode isHit p addr
      accessSize initiatorId) Q L.Stops s := by
  rcases hmode with rfl | rfl
  · exact upperRead_spec hdepth h hinv hp hfree ha hmiss hQ
  · exact upperWrite_spec hdepth h hinv hp hfree ha hmiss hhit hQ

/-- One activation of an upper cache keeps the invariant and passes on what lies behind the line. -/
theorem upperLine_spec (hdepth : 0 < depth) (h : L.Knows ∅ v sh s) (hinv : L.Inv v sh) (ha : L.IsLine (L.lineOf addr))
    (hmode : mode = .read ∨ mode = .write) :
    wp (accessNonCoherentLine L.toPlatform (L.watchedPorts depth j) (.upper j) mode size addr
        initiatorId handle)
      (fun res s' => res = L.rest (L.lineOf addr) addr size ∧ ∃ v' sh', L.Knows ∅ v' sh' s' ∧ L.Inv v' sh')
      L.Stops s := by
  obtain ⟨a, hbase⟩ : ∃ a, L.lineOf addr = a := ⟨_, rfl⟩
  rw [hbase] at ha ⊢
  have hserve {isHit : Bool} {accessSize : ℕ} {p v₁ sh₁ s₁} (h₁ : L.Knows {(.upper j, p, a)} v₁ sh₁ s₁)
      (hinv₁ : L.Inv v₁ sh₁) (hmiss : isHit = false → v₁.st (.upper j) a = .invalid)
      (hhit : isHit = true → v₁.st (.upper j) a ≠ .invalid) :
      wp (nonCoherentServe L.toPlatform (L.watchedPorts depth j) (.upper j) mode isHit p addr
        accessSize initiatorId) (fun _ s' => L.rest a addr size = L.rest a addr size ∧
          ∃ v' sh', L.Knows ∅ v' sh' s' ∧ L.Inv v' sh') L.Stops s₁ := by
    refine upperServe_spec hdepth h₁ hinv₁ rfl (by simp) ha hmode hmiss hhit fun v₂ sh₂ s₂ h₂ hinv₂ => ⟨rfl, ?_⟩
    exact ⟨v₂, sh₂, h₂.weaken (Set.empty_subset _), hinv₂⟩
  refine .step (wp_lookup_line h ha hbase (fun p s₁ hvalid h₁ _ => ?_) fun p s₁ habsent h₁ _ _ _ hway hindex => ?_)
  · have hp : (LevelRef.upper j, p, a) ∈ insert (.upper j, p, a) (∅ : Set (LevelRef n × LineRef × ℕ)) :=
      Set.mem_insert _ _
    refine .step (wp_getLine_any (.step (wp_check (.inr failureAllowed) (.step ?_))))
    refine wp_notify h₁ fun s₂ h₂ _ => wp_hit h₂ hp hmode fun accessSize => ?_
    exact hserve (h₂.weaken (by simp)) hinv (by simp) fun _ => hvalid
  · refine .step (wp_getLine_any (.step (wp_check (.inr failureAllowed) (.step ?_))))
    refine wp_notify h₁ fun s₂ h₂ hc₂ => ?_
    have hinvalidate : mode ≠ .invalidate := by rcases hmode with rfl | rfl <;> decide
    have hreadBack : mode ≠ .readBack := by rcases hmode with rfl | rfl <;> decide
    refine .ite_neg hinvalidate (.ite_neg hreadBack (.ite_neg (by simp [L.upper_higher]) ?_))
    refine .step (wp_getLine_any (.step (wp_check (.inr failureAllowed) (.step ?_))))
    refine upperReplace_spec h₂ hinv (by rwa [hc₂]) fun v₃ sh₃ s₃ h₃ hinv₃ hloses hway₃ => .step ?_
    refine wp_newLine h₃ (by simp) hway₃ hindex (hloses.of_invalid habsent) hbase fun v₄ s₄ h₄ hst₄ => ?_
    have hloses₄ : Loses v₃ v₄ := fun k b => (hst₄ (.upper k) b).imp_right fun hc => hc.2.2.2
    have hlower (b : ℕ) : v₄.st .lower b = v₃.st .lower b := (hst₄ .lower b).resolve_right (by simp)
    have hinv₄ : L.Inv v₄ sh₃ := hinv₃.lose hloses₄ fun k b _ hb => by rwa [hlower b]
    refine wp_serve h₄ (Set.mem_insert _ _) fun accessSize => hserve (h₄.weaken (by simp)) hinv₄ (fun _ => ?_) (by simp)
    exact hloses₄.of_invalid (hloses.of_invalid habsent)

/-- An access of any size keeps the invariant. -/
theorem upperAccess_spec {fuel : ℕ} (hdepth : 0 < depth) (h : L.Knows ∅ v sh s) (hinv : L.Inv v sh)
    (hfuel : size < fuel) (hsize : size < 2 ^ 64) (haddr : addr < 2 ^ 64) (hlines : ∀ k ≤ size - 1, L.IsLine (L.lineOf (add64 addr k)))
    (hmode : mode = .read ∨ mode = .write) :
    wp (accessNonCoherentCache L.toPlatform (L.watchedPorts depth j) (.upper j) mode initiatorId
        handle fuel size addr)
      (fun _ s' => ∃ v' sh', L.Knows ∅ v' sh' s' ∧ L.Inv v' sh') L.Stops s := by
  induction fuel generalizing size addr v sh s with
  | zero => omega
  | succ fuel ih =>
    have hline : L.IsLine (L.lineOf addr) := by
      have := hlines 0 (Nat.zero_le _)
      rwa [add64, Nat.add_zero, Nat.mod_eq_of_lt haddr] at this
    refine .bind (upperLine_spec hdepth h hinv hline hmode) ?_
    rintro res s₁ ⟨hres, v₁, sh₁, h₁, hinv₁⟩
    unfold rest at hres
    split at hres
    · rename_i hmore
      obtain ⟨haccess, hlt, hrest⟩ := Hierarchy.accessSize_spec hsize haddr (Nat.two_pow_pos _) hmore
      rw [lineOf, haccess] at hres
      subst hres
      dsimp only
      rw [hrest]
      refine ih h₁ hinv₁ (by omega) (by omega) (Nat.mod_lt _ (by positivity)) fun k hk => ?_
      have hadd (m : ℕ) : add64 (add64 addr m) k = add64 addr (m + k) := by
        unfold add64
        omega
      rw [hadd]
      exact hlines _ (by omega)
    · subst hres
      exact ⟨v₁, sh₁, h₁, hinv₁⟩

/-- A watched run keeps the invariant. -/
theorem runWith_spec {xs : List (CpuAccess n)} (hdepth : 0 < depth) (hxs : ∀ x ∈ xs, L.Fits x) (h : L.Knows ∅ v sh s)
    (hinv : L.Inv v sh) :
    wp (L.runWith L.watch depth xs) (fun _ s' => ∃ v' sh', L.Knows ∅ v' sh' s' ∧ L.Inv v' sh') L.Stops s := by
  refine .mono (wp_forM (L.access L.watch depth) (fun rest s' => (∀ x ∈ rest, L.Fits x) ∧
    ∃ v' sh', L.Knows ∅ v' sh' s' ∧ L.Inv v' sh') ?_ ⟨hxs, v, sh, h, hinv⟩) fun _ _ h => h.2
  rintro x rest s' ⟨hfits, v', sh', h', hinv'⟩
  obtain ⟨hsize, haddr, hline⟩ := hfits x List.mem_cons_self
  have hmode : (if x.write then CoherenceCommand.write else .read) = .read ∨
      (if x.write then CoherenceCommand.write else .read) = .write := by
    cases x.write
    · exact .inl rfl
    · exact .inr rfl
  refine .mono (upperAccess_spec hdepth h' hinv' (Nat.lt_succ_self _) hsize haddr hline hmode) fun _ s'' h'' => ?_
  exact ⟨fun y hy => hfits y (List.mem_cons_of_mem _ hy), h''⟩

end TwoLevels

end Vpsim.Memory
