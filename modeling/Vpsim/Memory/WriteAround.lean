import Vpsim.Memory.HitSound

/-!
# Write misses of a write-around cache

A cache without coherence whose allocation policy is write-around never gives a line a new address.
Its lines therefore keep the address 0 and the tag 0 with which they are built, and only their states
change. The code that serves a write miss still works through the line of the victim way: with its
address it decides how many bytes of the access it takes, what it fetches and what it marks.
-/

namespace Vpsim.Memory

open Vpsim.Lib

/-- What an event writes to the next level: an address and a size. -/
def Event.written : Event → List (ℕ × ℕ)
  | .transfer .write addr size => [(addr, size)]
  | _ => []

/-- The writes to the next level among the events. -/
def writes (l : List Event) : List (ℕ × ℕ) := l.flatMap Event.written

/-- The number of bytes that an access has in the line of its address. -/
def Access.piece (g : Geometry) (x : Access) : ℕ := min x.size (g.cacheLineSize - g.offset x.addr)

section

variable {ι : Type} [DecidableEq ι] (pl : Platform ι) (r : ι)

/-- The access is a write of 64-bit numbers, and its lookup misses. -/
def MissedWrite (s : State ι) (x : Access) : Prop :=
  x.mode = .write ∧ x.addr < 2 ^ 64 ∧ x.size < 2 ^ 64 ∧
    ((s.cache r).find (pl.cfg r).geometry x.addr).1 = false

/-- The activation completes and writes the bytes of the access to the next level. Every valid line
stays as it is, but for a modified victim that is written back and made invalid. -/
def WritesAround (s : State ι) (x : Access) : Prop :=
  let g := (pl.cfg r).geometry
  ∃ n t l, x.nonCoherentLine pl sinkPorts r s = .ok n t ∧ t.trace = l ++ s.trace ∧
    (x.addr, x.piece g) ∈ writes l ∧
    ∀ q, (s.cache r).Way q → ((s.cache r).line q).Valid →
      ((t.cache r).line q).address = ((s.cache r).line q).address ∧
      ((t.cache r).line q).tag = ((s.cache r).line q).tag ∧
      (((t.cache r).line q).state = ((s.cache r).line q).state ∨
        q = ((s.cache r).find g x.addr).2 ∧ ((s.cache r).line q).state = .modified ∧
        ((t.cache r).line q).state = .invalid ∧
        (((s.cache r).line q).address, g.cacheLineSize) ∈ writes l)

omit [DecidableEq ι] in
/-- The cache passes the bytes of a write on. -/
def CacheConfig.WritesThrough (cfg : CacheConfig) : Prop :=
  cfg.inclusionOfHigher ≠ .exclusive ∧ cfg.writePolicy = .wThrough

instance (cfg : CacheConfig) : Decidable cfg.WritesThrough :=
  inferInstanceAs (Decidable (_ ∧ _))

/-- The write is passed on with its own address and size. A write-through cache does so if the write
begins in the first line of the address space, or ends in it and stays in its line; any other cache
if it hands every line on to an inclusive lower one and the write is of the line 0. -/
def CacheConfig.PassesMiss (cfg : CacheConfig) (x : Access) : Prop :=
  let g := cfg.geometry
  cfg.replPolicy ≠ .fifo ∧
    if cfg.WritesThrough then
      if g.cacheLineSize < add64 x.addr x.size then g.offset x.addr = x.addr
      else x.size ≤ g.cacheLineSize - g.offset x.addr
    else cfg.inclusionOfLower = .inclusive ∧ x.addr = 0 ∧ g.cacheLineSize ≤ x.size

instance (cfg : CacheConfig) (x : Access) : Decidable (cfg.PassesMiss x) := by
  unfold CacheConfig.PassesMiss
  infer_instance

/-- No line has ever been given an address. -/
structure Blank (s : State ι) : Prop where
  policy : ∀ i, ((s.cache r).sets i).policy = (pl.cfg r).replPolicy
  address : ∀ q, ((s.cache r).line q).address = 0
  tag : ∀ q, ((s.cache r).line q).tag = 0

variable {pl r} {s t : State ι} {p : LineRef} {w : List (ℕ × ℕ)} {st : CoherenceState}

/-! ## Lines without an address -/

omit [DecidableEq ι] in
/-- The lines of an empty cache are blank. -/
theorem blank_init : Blank pl r (.init pl) := ⟨fun _ => rfl, fun _ => rfl, fun _ => rfl⟩

/-- A change of the replacement data leaves the lines blank. -/
theorem Blank.sameLines {f : Cache → Cache} (h : Blank pl r s) (hf : (s.cache r).SameLines (f (s.cache r))) :
    Blank pl r (s.modifyCache r f) := by
  refine ⟨fun i => ?_, fun q => ?_, fun q => ?_⟩
  · rw [State.modifyCache_cache, (hf.sets i).policy]
    exact h.policy i
  · rw [State.modifyCache_cache, hf.line]
    exact h.address q
  · rw [State.modifyCache_cache, hf.line]
    exact h.tag q

/-- The state of a line has nothing to do with its address. -/
theorem keeps_setState_blank (p : LineRef) (x : CoherenceState) : Keeps (Stays (Blank pl r)) (setState r p x) := by
  refine Keeps.modify fun s h => ⟨fun i => ?_, fun q => ?_, fun q => ?_⟩
  · rw [State.modifyCache_cache, Cache.modifyLine_policy]
    exact h.policy i
  · rw [State.modifyCache_cache, Cache.modifyLine_line]
    split
    · exact h.address p
    · exact h.address q
  · rw [State.modifyCache_cache, Cache.modifyLine_line]
    split
    · exact h.tag p
    · exact h.tag q

/-- An activation of a write-around cache gives no line an address. -/
theorem keeps_nonCoherentLine_blank (halloc : (pl.cfg r).allocPolicy = .wAround) (x : Access) :
    Keeps (Stays (Blank pl r)) (x.nonCoherentLine pl sinkPorts r) := by
  have hne : (pl.cfg r).allocPolicy ≠ .wAllocate := by
    rw [halloc]
    decide
  have hio : (sinkPorts : DataPorts ι).Keep (Stays (Blank pl r)) := by
    refine sinkPorts_keep fun s s' hc h => ⟨fun i => ?_, fun q => ?_, fun q => ?_⟩
    · rw [hc]
      exact h.policy i
    · rw [hc]
      exact h.address q
    · rw [hc]
      exact h.tag q
  have hsharers (a : ℕ) (f : Finset ℕ → Finset ℕ) : Keeps (Stays (Blank pl r)) (sharersModify r a f) :=
    Keeps.modify fun _ h => h.sameLines ⟨fun _ => ⟨rfl, rfl, fun _ => rfl⟩, rfl⟩
  have hlookup (addr : ℕ) : Keeps (Stays (Blank pl r)) (lookup pl r addr) :=
    fun s => wp_lookup_find (fun _ h => h) fun f hf _ h => h.sameLines hf
  have hnotify (isHit : Bool) (p : LineRef) : Keeps (Stays (Blank pl r)) (notifyVictim pl r isHit p) := by
    refine (keeps_getLine p).bind fun _ => keeps_runIf fun _ => Keeps.modify fun s h => ?_
    exact ⟨h.policy, h.address, h.tag⟩
  refine Keeps.bind ((hlookup _).bind fun (isHit, p) => ?_) fun _ => .pure _
  refine (keeps_getLine p).bind fun _ => (keeps_check _).bind fun _ => (hnotify _ _).bind fun _ => ?_
  refine keeps_nonCoherentAt hio hsharers (fun _ => keeps_setState_blank _ _) fun _ _ => ?_
  exact keeps_nonCoherentAllocating hio hsharers (.inr hne) (fun _ => keeps_setState_blank _ _)
    fun _ => keeps_setState_blank _

/-! ## The course of a missed write -/

/-- From `s` on, `w` has been written to the next level, no line but that at `p` has changed, and that
one is in the state `st`. -/
structure Writing (r : ι) (s : State ι) (p : LineRef) (w : List (ℕ × ℕ)) (st : CoherenceState) (t : State ι) :
    Prop where
  trace : ∃ l, t.trace = l ++ s.trace ∧ writes l = w
  other : ∀ q ≠ p, (t.cache r).line q = (s.cache r).line q
  place : (t.cache r).line p = { (s.cache r).line p with state := st }

omit [DecidableEq ι] in
/-- A transfer is recorded. -/
theorem wp_transfer {Q : Unit → State ι → Prop} {E : Stop → State ι → Prop} {e : Event}
    (h : Writing r s p w st t) (hQ : ∀ t', Writing r s p (e.written ++ w) st t' → Q () t') :
    wp (emit e) Q E t := by
  obtain ⟨l, hl, hw⟩ := h.trace
  refine hQ _ ⟨⟨e :: l, congrArg (e :: ·) hl, ?_⟩, h.other, h.place⟩
  rw [← hw]
  rfl

/-- The state of the victim's line is changed. -/
theorem wp_setState_writing {Q : Unit → State ι → Prop} {E : Stop → State ι → Prop} {x : CoherenceState}
    (h : Writing r s p w st t) (hQ : ∀ t', Writing r s p w x t' → Q () t') : wp (setState r p x) Q E t := by
  refine hQ _ ⟨h.trace, fun q hq => ?_, ?_⟩
  · rw [State.modifyCache_cache, Cache.modifyLine_line, if_neg hq]
    exact h.other q hq
  · rw [State.modifyCache_cache, Cache.modifyLine_line, if_pos rfl, h.place]
    rfl

/-- An entry of `Sharers` is changed. -/
theorem wp_sharersModify_writing {Q : Unit → State ι → Prop} {E : Stop → State ι → Prop} {a : ℕ}
    {f : Finset ℕ → Finset ℕ} (h : Writing r s p w st t) (hQ : ∀ t', Writing r s p w st t' → Q () t') :
    wp (sharersModify r a f) Q E t := by
  refine hQ _ ⟨h.trace, fun q hq => ?_, ?_⟩
  · rw [State.modifyCache_cache]
    exact h.other q hq
  · rw [State.modifyCache_cache]
    exact h.place

omit [DecidableEq ι] in
/-- Reading the victim's line gives the line from before, in the state that was set. -/
theorem wp_getLine_writing {Q : CacheLine → State ι → Prop} {E : Stop → State ι → Prop} (h : Writing r s p w st t)
    (hQ : Q { (s.cache r).line p with state := st } t) : wp (getLine r p) Q E t := by
  apply wp_getLine_any
  rw [h.place]
  exact hQ

/-- The writes that replacing the victim makes. -/
def CacheConfig.victimWrites (cfg : CacheConfig) (l : CacheLine) : List (ℕ × ℕ) :=
  if l.state = .modified ∧ cfg.writePolicy = .wBack then [(l.address, cfg.geometry.cacheLineSize)] else []

/-- A modified victim of a write-back cache is written and made invalid, any other one stays. -/
theorem nonCoherentReplace_writing {E : Stop → State ι → Prop}
    (h : Writing r s p [] ((s.cache r).line p).state t) :
    wp (nonCoherentReplace pl sinkPorts r false p)
      (fun _ t' => ∃ st', Writing r s p ((pl.cfg r).victimWrites ((s.cache r).line p)) st' t' ∧
        ((pl.cfg r).writePolicy = .wThrough → st' = ((s.cache r).line p).state)) E t := by
  have hinvalidate {st : CoherenceState} {w : List (ℕ × ℕ)} {t : State ι} (h : Writing r s p w st t) :
      wp (runIf ((pl.cfg r).inclusionOfHigher = .inclusive ∧ false = false) do
        let line ← getLine r p
        let ids ← sharersOf r line.address
        runIf (ids.card ≠ 0) do
          sinkPorts.backInvalidate line.address ids
          let line ← getLine r p
          sharersModify r line.address fun _ => ∅) (fun _ => Writing r s p w st) E t := by
    refine wp_runIf (fun _ => .step (wp_getLine_any (.step (wp_sharersOf ?_)))) fun _ => h
    refine wp_runIf (fun _ => .step (wp_transfer h fun t' h' => .step (wp_getLine_any ?_))) fun _ => h
    exact wp_sharersModify_writing h' fun _ h'' => h''
  have hrest {st : CoherenceState} {w : List (ℕ × ℕ)} {t : State ι} (h : Writing r s p w st t) :
      wp (do
        let line ← getLine r p
        runIf (false = false ∧ line.state = .shared ∧ (pl.cfg r).inclusionOfLower = .exclusive)
          (sinkPorts.forwardEvict line.address (pl.cfg r).geometry.cacheLineSize)
        runIf ((pl.cfg r).inclusionOfHigher = .inclusive ∧ false = false) do
          let line ← getLine r p
          let ids ← sharersOf r line.address
          runIf (ids.card ≠ 0) do
            sinkPorts.backInvalidate line.address ids
            let line ← getLine r p
            sharersModify r line.address fun _ => ∅) (fun _ => Writing r s p w st) E t := by
    refine .step (wp_getLine_any (.step (wp_runIf (fun _ => ?_) fun _ => hinvalidate h)))
    exact wp_transfer h fun t' h' => hinvalidate h'
  refine .step (wp_getLine_writing h (.step (wp_runIf (fun hc => ?_) fun hc => ?_)))
  · refine .step (wp_transfer h fun t' h' => wp_setState_writing h' fun t'' h'' => ?_)
    refine (hrest h'').mono fun _ t₁ h₁ => ⟨.invalid, ?_, fun hthrough => ?_⟩
    · unfold CacheConfig.victimWrites
      rw [if_pos hc.2]
      exact h₁
    · rw [hc.2.2] at hthrough
      cases hthrough
  · refine (hrest h).mono fun _ t₁ h₁ => ⟨_, ?_, fun _ => rfl⟩
    unfold CacheConfig.victimWrites
    rw [if_neg fun h => hc ⟨rfl, h⟩]
    exact h₁

/-- The write of the missed bytes, which leaves the victim's line alone in a cache that passes them on. -/
theorem nonCoherentWrite_writing {E : Stop → State ι → Prop} {addr accessSize initiatorId : ℕ}
    (h : Writing r s p w st t) :
    wp (nonCoherentWrite pl sinkPorts r false p addr accessSize initiatorId)
      (fun _ t' => ∃ st', Writing r s p
        ((if (pl.cfg r).inclusionOfLower = .inclusive then
            [(((s.cache r).line p).address, (pl.cfg r).geometry.cacheLineSize)] else []) ++
          ((if (pl.cfg r).WritesThrough then [(addr, accessSize)] else []) ++ w)) st' t' ∧
        ((pl.cfg r).WritesThrough → st' = st)) E t := by
  have hlower {st : CoherenceState} {w : List (ℕ × ℕ)} {t : State ι} (h : Writing r s p w st t) :
      wp (do
        let line ← getLine r p
        runIf ((pl.cfg r).inclusionOfLower = .inclusive)
          (sinkPorts.forwardWriteData line.address (pl.cfg r).geometry.cacheLineSize))
        (fun _ => Writing r s p ((if (pl.cfg r).inclusionOfLower = .inclusive then
          [(((s.cache r).line p).address, (pl.cfg r).geometry.cacheLineSize)] else []) ++ w) st) E t := by
    refine .step (wp_getLine_writing h (wp_runIf (fun hc => ?_) fun hc => ?_))
    · rw [if_pos hc]
      exact wp_transfer h fun t' h' => h'
    · rw [if_neg hc]
      exact h
  refine .step (wp_getLine_any (.step (wp_sharersModify_writing h fun t h => .step ?_)))
  by_cases hpass : (pl.cfg r).WritesThrough
  · rw [if_pos hpass]
    refine .step (wp_getLine_any (wp.ite_neg (fun hc => hpass.1 hc.1) (wp.ite_pos hpass.2 ?_)))
    exact wp_transfer h fun t' h' => (hlower h').mono fun _ _ h'' => ⟨st, h'', fun _ => rfl⟩
  · rw [if_neg hpass]
    have hmark {st : CoherenceState} {t : State ι} (h : Writing r s p w st t) (x : CoherenceState) :
        wp (setState r p x) (fun _ t' => ∃ st', Writing r s p w st' t') E t :=
      wp_setState_writing h fun t' h' => ⟨x, h'⟩
    have hstore : wp (nonCoherentStore pl sinkPorts r false p addr accessSize)
        (fun _ t' => ∃ st', Writing r s p w st' t') E t := by
      refine .step (wp_getLine_any ?_)
      by_cases hx : (pl.cfg r).inclusionOfHigher = .exclusive
      · refine wp.ite_pos ⟨hx, rfl⟩ (.step (wp_sharersOf ?_))
        split
        · exact hmark h _
        · exact .step (wp_transfer h fun t' h' => hmark h' _)
      · refine wp.ite_neg (fun hc => hx hc.1) (wp.ite_neg (fun hc => hpass ⟨hx, hc⟩) (.step ?_))
        exact wp_runIf_pos rfl (wp_transfer h fun t' h' => hmark h' _)
    refine hstore.mono fun _ t' h' => ?_
    obtain ⟨st', h'⟩ := h'
    exact (hlower h').mono fun _ _ h'' => ⟨st', h'', fun hp => absurd hp hpass⟩

/-- The bytes of the access that are taken for those of the victim's line. -/
def Access.taken (g : Geometry) (x : Access) (a : ℕ) : ℕ :=
  if g.cacheLineSize < add64 (sub64 x.addr a) x.size then sub64 g.cacheLineSize (sub64 x.addr a) else x.size

/-- The writes of an activation that misses with a write. -/
def CacheConfig.missWrites (cfg : CacheConfig) (x : Access) (l : CacheLine) : List (ℕ × ℕ) :=
  (if cfg.inclusionOfLower = .inclusive then [(l.address, cfg.geometry.cacheLineSize)] else []) ++
    ((if cfg.WritesThrough then [(x.addr, x.taken cfg.geometry l.address)] else []) ++ cfg.victimWrites l)

/-- What a missed write of a write-around cache does. It stops for the FIFO policy, or if it takes more
bytes than a line has. -/
theorem nonCoherentLine_missed {x : Access} (halloc : (pl.cfg r).allocPolicy = .wAround)
    (hpolicy : ∀ i, ((s.cache r).sets i).policy = (pl.cfg r).replPolicy) (hx : MissedWrite pl r s x) :
    let p := ((s.cache r).find (pl.cfg r).geometry x.addr).2
    let l := (s.cache r).line p
    wp (x.nonCoherentLine pl sinkPorts r)
      (fun _ t => ∃ st, Writing r s p ((pl.cfg r).missWrites x l) st t ∧
        ((pl.cfg r).WritesThrough → st = l.state))
      (fun _ _ => (pl.cfg r).replPolicy = .fifo ∨
        (pl.cfg r).geometry.cacheLineSize < x.taken (pl.cfg r).geometry l.address) s := by
  obtain ⟨hmode, -, -, hmiss⟩ := hx
  rcases hfound : (s.cache r).find (pl.cfg r).geometry x.addr with ⟨isHit, p⟩
  obtain rfl : isHit = false := by
    rw [hfound] at hmiss
    exact hmiss
  dsimp only
  refine .bind (.step (wp_lookup_find (fun hf => .inl ((hpolicy _).symm.trans hf)) fun f hf _ => ?_))
    fun _ _ h => h
  rw [hfound]
  have h₁ : Writing r s p [] ((s.cache r).line p).state (s.modifyCache r f) := by
    refine ⟨⟨[], rfl, rfl⟩, fun q _ => ?_, ?_⟩
    · rw [State.modifyCache_cache]
      exact hf.line q
    · rw [State.modifyCache_cache]
      exact hf.line p
  refine .step (wp_getLine_any (.step (wp_check (.inl (.inl rfl)) (.step ?_))))
  refine wp_notifyVictim_beside fun s₂ hc ht => ?_
  have h₂ : Writing r s p [] ((s.cache r).line p).state s₂ := by
    obtain ⟨l, hl, hw⟩ := h₁.trace
    refine ⟨⟨l, ht.trans hl, hw⟩, fun q hq => ?_, ?_⟩
    · rw [hc]
      exact h₁.other q hq
    · rw [hc]
      exact h₁.place
  rw [hmode]
  unfold nonCoherentAt
  rw [if_neg (by decide), if_neg (by decide), if_neg fun hc => absurd hc.2.2 (by decide)]
  refine .step (wp_getLine_any (.step (wp_check (.inl (.inl rfl)) ?_)))
  refine .bind (nonCoherentReplace_writing h₂) fun _ s₃ h₃ => ?_
  obtain ⟨st, h₃, hst⟩ := h₃
  refine .step (wp_runIf_neg (fun hc => by rw [halloc] at hc; cases hc.2) (.step (wp_getLine_writing h₃ ?_)))
  refine .step (wp_check (or_iff_not_imp_left.2 fun hlarge _ => .inr (Nat.lt_of_not_le hlarge)) (.step ?_))
  refine (nonCoherentWrite_writing h₃).mono fun _ t ht => ?_
  obtain ⟨st', ht, hst'⟩ := ht
  exact ⟨st', ht, fun hpass => (hst' hpass).trans (hst hpass.2)⟩

/-! ## When the write is passed on -/

variable {cfg : CacheConfig} {x : Access}

omit [DecidableEq ι] in
/-- At a line without an address, the bytes taken are those that the access has in its line exactly
when the condition of a write-through cache holds. -/
theorem taken_eq_piece_iff {g : Geometry} (hg : g.Accepted) (hline : g.cacheLineSize < 2 ^ 64)
    (haddr : x.addr < 2 ^ 64) :
    x.taken g 0 = x.piece g ↔ if g.cacheLineSize < add64 x.addr x.size then g.offset x.addr = x.addr
      else x.size ≤ g.cacheLineSize - g.offset x.addr := by
  have hused : sub64 x.addr 0 = x.addr := by
    unfold sub64
    omega
  have hle : g.offset x.addr ≤ x.addr := by
    rw [Geometry.offset_eq]
    exact Nat.mod_le _ _
  have hlt : g.offset x.addr < g.cacheLineSize := by
    have := hg.sub_lineBase_lt x.addr
    unfold Geometry.lineBase at this
    omega
  unfold Access.taken Access.piece
  rw [hused]
  split
  · rename_i hlong
    unfold add64 at hlong
    unfold sub64
    omega
  · omega

omit [DecidableEq ι] in
/-- The bytes taken fit into a line when they are those of the access. -/
theorem piece_le (g : Geometry) (x : Access) : x.piece g ≤ g.cacheLineSize :=
  le_trans (Nat.min_le_right _ _) (Nat.sub_le _ _)

omit [DecidableEq ι] in
/-- A missed write at the address 0 finds no valid line in the set. -/
theorem Blank.not_valid_of_miss (h : Blank pl r s) (haddr : x.addr = 0)
    (hmiss : ((s.cache r).find (pl.cfg r).geometry x.addr).1 = false) :
    ¬ ((s.cache r).line ((s.cache r).find (pl.cfg r).geometry x.addr).2).Valid := by
  intro hvalid
  have htag := h.tag ((s.cache r).find (pl.cfg r).geometry x.addr).2
  obtain ⟨hway, hindex⟩ := Cache.find_way (pl.cfg r).geometry (s.cache r) x.addr
  revert hvalid htag hway hindex hmiss
  unfold Cache.find
  cases hl : ((s.cache r).sets ((pl.cfg r).geometry.index x.addr)).locateLineInSet
      ((pl.cfg r).geometry.tag x.addr % wordSize) with
  | some way => exact fun h => absurd h (by simp)
  | none =>
    intro _ hvalid htag hway _
    refine CacheSet.findWay_eq_none hl hway ⟨?_, hvalid⟩
    have hzero : (pl.cfg r).geometry.tag x.addr = 0 := by
      rw [haddr]
      exact Nat.le_zero.1 (Geometry.tag_le 0)
    rw [hzero]
    exact htag

omit [DecidableEq ι] in
/-- At the address 0 the piece is a whole line exactly when the access has that many bytes. -/
theorem piece_zero {g : Geometry} (haddr : x.addr = 0) : x.piece g = g.cacheLineSize ↔ g.cacheLineSize ≤ x.size := by
  have hoffset : g.offset x.addr = 0 := by
    rw [haddr, Geometry.offset_eq]
    exact Nat.zero_mod _
  unfold Access.piece
  rw [hoffset, Nat.sub_zero]
  exact min_eq_right_iff

/-- The write is passed on if it is accepted at all. -/
def CacheConfig.PassesBytes (cfg : CacheConfig) (x : Access) : Prop :=
  if cfg.WritesThrough then x.taken cfg.geometry 0 = x.piece cfg.geometry
  else cfg.inclusionOfLower = .inclusive ∧ x.addr = 0 ∧ x.piece cfg.geometry = cfg.geometry.cacheLineSize

omit [DecidableEq ι] in
/-- A missed write meets the condition exactly when the policy is not FIFO and the bytes that it takes
pass. -/
theorem passesMiss_iff (hline : cfg.geometry.cacheLineSize < 2 ^ 64) (haddr : x.addr < 2 ^ 64) :
    cfg.PassesMiss x ↔ cfg.replPolicy ≠ .fifo ∧ cfg.PassesBytes x := by
  unfold CacheConfig.PassesMiss CacheConfig.PassesBytes
  refine and_congr_right fun _ => ?_
  split
  · exact (taken_eq_piece_iff cfg.accepted hline haddr).symm
  · exact and_congr_right fun _ => and_congr_right fun hzero => (piece_zero hzero).symm

omit [DecidableEq ι] in
/-- At the address 0 a whole line is taken as what it is. -/
theorem taken_zero {g : Geometry} (hg : g.Accepted) (hline : g.cacheLineSize < 2 ^ 64) (haddr : x.addr = 0)
    (hsize : x.size < 2 ^ 64) (hpiece : x.piece g = g.cacheLineSize) : x.taken g 0 = x.piece g := by
  rw [taken_eq_piece_iff hg hline (by omega)]
  have hle := (piece_zero haddr).1 hpiece
  have hoffset : g.offset x.addr = 0 := by
    rw [haddr, Geometry.offset_eq]
    exact Nat.zero_mod _
  rw [hoffset, haddr]
  split
  · rfl
  · rename_i hshort
    unfold add64 at hshort
    omega

omit [DecidableEq ι] in
/-- The writes of a miss that finds a line without an address name the missed bytes exactly when the
bytes are passed on. -/
theorem mem_missWrites_iff {l : CacheLine} (hline : cfg.geometry.cacheLineSize < 2 ^ 64)
    (hsize : x.size < 2 ^ 64) (hl : l.address = 0) (hvictim : x.addr = 0 → ¬ l.Valid) :
    (x.addr, x.piece cfg.geometry) ∈ cfg.missWrites x l ↔ cfg.PassesBytes x := by
  have hnotVictim : (x.addr, x.piece cfg.geometry) ∉ cfg.victimWrites l := by
    unfold CacheConfig.victimWrites
    split
    · rename_i hmodified
      rw [List.mem_singleton, hl]
      intro heq
      apply hvictim (congrArg Prod.fst heq)
      rw [CacheLine.Valid, hmodified.1]
      decide
    · exact List.not_mem_nil
  have hzero (haddr : x.addr = 0) (hpiece : x.piece cfg.geometry = cfg.geometry.cacheLineSize) :=
    taken_zero cfg.accepted hline haddr hsize hpiece
  unfold CacheConfig.missWrites CacheConfig.PassesBytes
  rw [List.mem_append, List.mem_append, hl]
  by_cases hpass : cfg.WritesThrough
  · rw [if_pos hpass, if_pos hpass]
    constructor
    · rintro (hlower | hown | hvictim)
      · split at hlower
        · have heq := List.mem_singleton.1 hlower
          exact hzero (congrArg Prod.fst heq) (congrArg Prod.snd heq)
        · cases hlower
      · exact (congrArg Prod.snd (List.mem_singleton.1 hown)).symm
      · exact absurd hvictim hnotVictim
    · intro htaken
      exact .inr (.inl (List.mem_singleton.2 (Prod.ext rfl htaken.symm)))
  · rw [if_neg hpass, if_neg hpass]
    constructor
    · rintro (hlower | hown | hvictim)
      · split at hlower
        · rename_i hincl
          have heq := List.mem_singleton.1 hlower
          exact ⟨hincl, congrArg Prod.fst heq, congrArg Prod.snd heq⟩
        · cases hlower
      · cases hown
      · exact absurd hvictim hnotVictim
    · intro htaken
      obtain ⟨hincl, haddr, hpiece⟩ := htaken
      rw [if_pos hincl]
      exact .inl (List.mem_singleton.2 (Prod.ext haddr hpiece))

/-- With the FIFO policy no activation completes. -/
theorem nonCoherentLine_fifo (hpolicy : ∀ i, ((s.cache r).sets i).policy = .fifo) (x : Access) :
    wp (x.nonCoherentLine pl sinkPorts r) (fun _ _ => False) (fun _ _ => True) s := by
  refine .step (.step (.step ?_))
  rw [wp_get]
  have hnone (i tag : ℕ) : ((s.cache r).sets i).accessSet tag = none := if_pos (hpolicy i)
  dsimp only
  rw [hnone]
  trivial

/-- A missed write of a write-around cache whose lines have no address is passed on, and leaves the
valid lines alone, exactly when the condition on the cache and the access holds. -/
theorem writesAround_iff (halloc : (pl.cfg r).allocPolicy = .wAround)
    (hline : (pl.cfg r).geometry.cacheLineSize < 2 ^ 64) (h : Blank pl r s) (hx : MissedWrite pl r s x) :
    WritesAround pl r s x ↔ (pl.cfg r).PassesMiss x := by
  have hspec := nonCoherentLine_missed halloc h.policy hx
  obtain ⟨-, haddr, hsize, hmiss⟩ := hx
  have hmem := mem_missWrites_iff hline hsize (h.address _) (h.not_valid_of_miss · hmiss)
  have hinvalid := (h.not_valid_of_miss · hmiss)
  rw [passesMiss_iff hline haddr]
  dsimp only at hspec
  unfold WritesAround
  dsimp only
  generalize ((s.cache r).find (pl.cfg r).geometry x.addr).2 = p at *
  constructor
  · intro ⟨n, t, l, hrun, htrace, hwritten, _⟩
    obtain ⟨st, hcourse, -⟩ := hspec.of_ok hrun
    obtain ⟨l', hl', hwrites⟩ := hcourse.trace
    have hsame : l = l' := List.append_cancel_right (htrace.symm.trans hl')
    rw [hsame, hwrites] at hwritten
    refine ⟨fun hfifo => ?_, hmem.1 hwritten⟩
    exact (nonCoherentLine_fifo (fun i => (h.policy i).trans hfifo) x).of_ok hrun
  · intro ⟨hfifo, hbytes⟩
    have htaken : x.taken (pl.cfg r).geometry 0 = x.piece (pl.cfg r).geometry := by
      unfold CacheConfig.PassesBytes at hbytes
      split at hbytes
      · exact hbytes
      · exact taken_zero (pl.cfg r).accepted hline hbytes.2.1 hsize hbytes.2.2
    cases hrun : x.nonCoherentLine pl sinkPorts r s with
    | error e t =>
      rcases hspec.of_error hrun with hstop | hstop
      · exact absurd hstop hfifo
      · rw [h.address, htaken] at hstop
        exact absurd (piece_le _ x) (Nat.not_le.2 hstop)
    | ok n t =>
      obtain ⟨st, hcourse, hst⟩ := hspec.of_ok hrun
      obtain ⟨l, hl, hwrites⟩ := hcourse.trace
      refine ⟨n, t, l, rfl, hl, hwrites ▸ hmem.2 hbytes, fun q _ hvalid => ?_⟩
      by_cases hq : q = p
      · rw [hq] at hvalid ⊢
        rw [hcourse.place]
        refine ⟨rfl, rfl, .inl (hst ?_)⟩
        -- otherwise the write is at the address 0, and the victim is not valid
        by_contra hpass
        unfold CacheConfig.PassesBytes at hbytes
        rw [if_neg hpass] at hbytes
        exact hinvalid hbytes.2.1 hvalid
      · rw [hcourse.other q hq]
        exact ⟨rfl, rfl, .inl rfl⟩

/-! ## Runs -/

/-- Every activation of a run of accesses meets the condition in the state from which it starts. -/
def EachLine (pl : Platform ι) (r : ι) (fuel : ℕ) (cond : State ι → Access → Prop) (s : State ι)
    (xs : List Access) : Prop :=
  Along (Access.nonCoherent pl sinkPorts r fuel)
    (fun s x => Rounds (Access.nonCoherentLine pl sinkPorts r) cond fuel s x) s xs

/-- What the activations of a run of a write-around cache have while no line has an address. -/
theorem EachLine.imp_blank (halloc : (pl.cfg r).allocPolicy = .wAround) {fuel : ℕ}
    {cond cond' : State ι → Access → Prop} (hcond : ∀ s x, Blank pl r s → cond s x → cond' s x)
    {xs : List Access} (h : EachLine pl r fuel cond (.init pl) xs) : EachLine pl r fuel cond' (.init pl) xs := by
  have hline {s s' : State ι} {x : Access} {y : Option Access} (hs : Blank pl r s)
      (hrun : x.nonCoherentLine pl sinkPorts r s = .ok y s') : Blank pl r s' :=
    ((keeps_nonCoherentLine_blank halloc x).wp_of_stays hs).of_ok hrun
  refine Along.imp (Blank pl r) (fun s x s' hs _ hrun => ?_) (fun s x hs hr => ?_) h blank_init
  · rw [Access.nonCoherent_eq_loop] at hrun
    have hkeeps : Keeps (Stays (Blank pl r)) (loop (Access.nonCoherentLine pl sinkPorts r) .undefined fuel x) :=
      Keeps.loop (fun y => keeps_nonCoherentLine_blank halloc y) fuel x
    exact (hkeeps.wp_of_stays hs).of_ok hrun
  · exact hr.imp (Blank pl r) (fun t y _ t' ht _ hrun => hline ht hrun) (fun t y ht hy => hcond t y ht hy) hs

/-- In every run of accesses to a write-around cache, each missed write is passed on and leaves the
valid lines alone exactly when each is one that the cache passes on. -/
theorem missed_writes_around_iff (fuel : ℕ) (halloc : (pl.cfg r).allocPolicy = .wAround)
    (hline : (pl.cfg r).geometry.cacheLineSize < 2 ^ 64) (xs : List Access) :
    EachLine pl r fuel (fun s x => MissedWrite pl r s x → WritesAround pl r s x) (.init pl) xs ↔
      EachLine pl r fuel (fun s x => MissedWrite pl r s x → (pl.cfg r).PassesMiss x) (.init pl) xs := by
  constructor
  · intro h
    apply EachLine.imp_blank halloc _ h
    intro s x hs hx hmissed
    exact (writesAround_iff halloc hline hs hmissed).1 (hx hmissed)
  · intro h
    apply EachLine.imp_blank halloc _ h
    intro s x hs hx hmissed
    exact (writesAround_iff halloc hline hs hmissed).2 (hx hmissed)

end

/-- A write-around cache of one line. -/
def aroundLine (policy : CacheWritePolicy) : CacheConfig :=
  { oneLine .nine with writePolicy := policy, allocPolicy := .wAround }

/-- The write of eight bytes at the address 0. -/
def writeEight : Access := { mode := .write, size := 8, addr := 0 }

/-- A write-through cache passes the write of the first bytes on. -/
theorem missed_writes_around_through :
    EachLine (.single (aroundLine .wThrough)) () 1
      (fun s x => MissedWrite (.single (aroundLine .wThrough)) () s x →
        WritesAround (.single (aroundLine .wThrough)) () s x)
      (.init (.single (aroundLine .wThrough))) [writeEight] := by
  apply (missed_writes_around_iff 1 rfl (by decide) _).2
  exact .cons (.last (fun _ => by decide +kernel) (by decide +kernel)) trivial

/-- A write-back cache marks the victim's line and fetches it, and the write goes nowhere. -/
theorem missed_write_not_passed_on : ¬ ∀ cfg : CacheConfig, cfg.allocPolicy = .wAround →
    cfg.geometry.cacheLineSize < 2 ^ 64 → ∀ (fuel : ℕ) (xs : List Access),
      EachLine (.single cfg) () fuel
        (fun s x => MissedWrite (.single cfg) () s x → WritesAround (.single cfg) () s x)
        (.init (.single cfg)) xs := by
  intro hclaim
  have hrun := hclaim (aroundLine .wBack) rfl (by decide) 1 [writeEight]
  obtain ⟨n, t, l, hok, htrace, hwritten, -⟩ := hrun.1.1 ⟨rfl, by decide, by decide, by decide +kernel⟩
  have hl : l = (endState (writeEight.nonCoherentLine (.single (aroundLine .wBack)) sinkPorts ()
      (.init (.single (aroundLine .wBack))))).trace := by
    rw [hok]
    exact (htrace.trans (List.append_nil l)).symm
  rw [hl] at hwritten
  exact absurd hwritten (by decide +kernel)

end Vpsim.Memory
