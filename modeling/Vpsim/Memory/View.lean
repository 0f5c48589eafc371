import Vpsim.Lib.StateSpec
import Vpsim.Memory.CoherentAccess
import Vpsim.Memory.SoundCache

/-!
# What the protocol sees of a platform

The view of a state keeps, for every cache and line address, the state of the line and the
directory entry, and the trace. Every primitive operation of the access functions gets its
effect on the view; the protocol proofs use nothing else about the caches.

Between a lookup and the last use of the line pointer it returns, other accesses may reach the
same cache. `At` therefore carries the line pointers that are in use, each with the address that
its place carries.
-/

namespace Vpsim.Memory

open Vpsim.Lib

/-- States, directory entries and trace. -/
structure View (ι : Type) where
  st : ι → ℕ → CoherenceState
  dir : ι → ℕ → Option DirectoryEntry
  trace : List Event

namespace View

variable {ι : Type} (v : View ι)

/-- An event happens. -/
def emit (e : Event) : View ι := { v with trace := e :: v.trace }

variable {v} {ev : Event}

@[simp] theorem emit_st : (v.emit ev).st = v.st := rfl

@[simp] theorem emit_dir : (v.emit ev).dir = v.dir := rfl

@[simp] theorem emit_trace : (v.emit ev).trace = ev :: v.trace := rfl

variable [DecidableEq ι] (v)

/-- A cache changes the state of a line. -/
def setSt (r : ι) (a : ℕ) (x : CoherenceState) : View ι :=
  { v with st := fun r' b => if r' = r ∧ b = a then x else v.st r' b }

/-- A cache changes a directory entry. -/
def setDir (r : ι) (a : ℕ) (e : DirectoryEntry) : View ι :=
  { v with dir := fun r' b => if r' = r ∧ b = a then some e else v.dir r' b }

variable {v} {r r' : ι} {a b : ℕ} {x : CoherenceState} {e : DirectoryEntry}

@[simp] theorem setSt_st : (v.setSt r a x).st r' b = if r' = r ∧ b = a then x else v.st r' b := rfl

@[simp] theorem setSt_dir : (v.setSt r a x).dir = v.dir := rfl

@[simp] theorem setSt_trace : (v.setSt r a x).trace = v.trace := rfl

@[simp] theorem setDir_st : (v.setDir r a e).st = v.st := rfl

@[simp] theorem setDir_dir :
    (v.setDir r a e).dir r' b = if r' = r ∧ b = a then some e else v.dir r' b := rfl

@[simp] theorem setDir_trace : (v.setDir r a e).trace = v.trace := rfl

/-- The state that has been written is read back. -/
theorem setSt_at : (v.setSt r a x).st r a = x := if_pos ⟨rfl, rfl⟩

/-- The entry that has been written is read back. -/
theorem setDir_at : (v.setDir r a e).dir r a = some e := if_pos ⟨rfl, rfl⟩

/-- Writing back a state that is there changes nothing. -/
theorem setSt_self (h : v.st r a = x) : v.setSt r a x = v := by
  unfold setSt
  obtain ⟨st, dir, trace⟩ := v
  congr 1
  funext r' b
  dsimp only
  split
  · rename_i hrb
    rw [hrb.1, hrb.2]
    exact h.symm
  · rfl

end View

/-- The view of a state. -/
def State.view {ι : Type} (pl : Platform ι) (s : State ι) : View ι where
  st r a := (s.cache r).stateOf (pl.cfg r).geometry a
  dir r := (s.cache r).directory
  trace := s.trace

section

variable {ι : Type}

/-- The state `s` is sound for the line addresses `P`, has the view `v`, and the line pointers
`live` are in use. -/
structure At (pl : Platform ι) (P : ℕ → Prop) (live : Set (ι × LineRef × ℕ)) (v : View ι)
    (s : State ι) : Prop where
  distinct : ∀ r, Distinct (pl.cfg r).geometry P
  wf : ∀ r, (s.cache r).WF (pl.cfg r) P
  owns : ∀ r p a, (r, p, a) ∈ live → (s.cache r).Owns (pl.cfg r).geometry p a
  place : ∀ r p q a, (r, p, a) ∈ live → (r, q, a) ∈ live → p = q
  view_eq : s.view pl = v

namespace At

variable {pl : Platform ι} {P : ℕ → Prop} {live live' : Set (ι × LineRef × ℕ)} {v : View ι}
  {s : State ι} {r : ι} {p : LineRef} {a : ℕ}

/-- Pointers may go out of use. -/
theorem weaken (h : At pl P live v s) (hsub : live' ⊆ live) : At pl P live' v s where
  distinct := h.distinct
  wf := h.wf
  owns r p a hm := h.owns r p a (hsub hm)
  place r p q a hp hq := h.place r p q a (hsub hp) (hsub hq)
  view_eq := h.view_eq

theorem st_eq (h : At pl P live v s) (r : ι) (a : ℕ) :
    (s.cache r).stateOf (pl.cfg r).geometry a = v.st r a := by
  rw [← h.view_eq]
  rfl

theorem dir_eq (h : At pl P live v s) (r : ι) : (s.cache r).directory = v.dir r := by
  rw [← h.view_eq]
  rfl

theorem trace_eq (h : At pl P live v s) : s.trace = v.trace := by
  rw [← h.view_eq]
  rfl

/-- A pointer in use reads the address it was obtained for. -/
theorem line_address (h : At pl P live v s) (hm : (r, p, a) ∈ live) :
    ((s.cache r).line p).address = a :=
  (h.owns r p a hm).address

/-- A pointer in use reads the state of its address. -/
theorem line_state (h : At pl P live v s) (hm : (r, p, a) ∈ live) :
    ((s.cache r).line p).state = v.st r a := by
  rw [← h.st_eq, (h.owns r p a hm).stateOf_eq]

end At

end

section Rules

variable {ι : Type} {pl : Platform ι} {P : ℕ → Prop} {live : Set (ι × LineRef × ℕ)} {v : View ι}
  {s : State ι} {r : ι} {p : LineRef} {a : ℕ} {E : Stop → State ι → Prop}

/-- A pointer obtained by a hit, or by an allocation in a cache without pointers in use. -/
theorem At.use (h : At pl P live v s) (ho : (s.cache r).Owns (pl.cfg r).geometry p a)
    (hplace : ∀ q, (r, q, a) ∈ live → q = p) : At pl P (insert (r, p, a) live) v s where
  distinct := h.distinct
  wf := h.wf
  owns r' q b hm := by
    rcases hm with hm | hm
    · cases hm
      exact ho
    · exact h.owns r' q b hm
  place r' q q' b hq hq' := by
    rcases hq with hq | hq <;> rcases hq' with hq' | hq'
    · cases hq
      cases hq'
      rfl
    · cases hq
      exact (hplace q' hq').symm
    · cases hq'
      exact hplace q hq
    · exact h.place r' q q' b hq hq'
  view_eq := h.view_eq

/-- The failure of an assertion is accounted for, if assertions are compiled in. -/
def FailureAllowed (pl : Platform ι) (E : Stop → State ι → Prop) (s : State ι) : Prop :=
  pl.checks = true → E .assertion s

/-- An assertion that holds, or whose failure is accounted for, may be passed. -/
theorem wp_check {c : Prop} [Decidable c] {Q : Unit → State ι → Prop} (hc : c ∨ FailureAllowed pl E s)
    (hQ : Q () s) : wp (check pl c) Q E s := by
  unfold check
  split
  · rename_i h
    exact hc.resolve_left h.2 h.1
  · exact hQ

/-- A statement under a condition meets what both cases meet. -/
theorem wp_runIf {c : Prop} [Decidable c] {x : CacheM ι Unit} {Q : Unit → State ι → Prop}
    (ht : c → wp x Q E s) (hf : ¬ c → Q () s) : wp (runIf c x) Q E s := by
  unfold runIf
  split
  · rename_i h
    exact ht h
  · rename_i h
    exact hf h

/-- A statement under a condition that holds is run. -/
theorem wp_runIf_pos {c : Prop} [Decidable c] {x : CacheM ι Unit} {Q : Unit → State ι → Prop}
    (hc : c) (h : wp x Q E s) : wp (runIf c x) Q E s :=
  wp_runIf (fun _ => h) fun hn => absurd hc hn

/-- A statement under a condition that does not hold is skipped. -/
theorem wp_runIf_neg {c : Prop} [Decidable c] {x : CacheM ι Unit} {Q : Unit → State ι → Prop}
    (hc : ¬ c) (h : Q () s) : wp (runIf c x) Q E s :=
  wp_runIf (fun hp => absurd hp hc) fun _ => h

/-- Appending an event appends it to the view and leaves the caches alone. -/
theorem wp_emit_cache {Q : Unit → State ι → Prop} {ev : Event} (h : At pl P live v s)
    (hQ : ∀ s', s'.cache = s.cache → At pl P live (v.emit ev) s' → Q () s') : wp (emit ev) Q E s := by
  refine hQ _ rfl ⟨h.distinct, h.wf, h.owns, h.place, ?_⟩
  rw [← h.view_eq]
  rfl

/-- Appending an event appends it to the view. -/
theorem wp_emit {Q : Unit → State ι → Prop} {ev : Event} (h : At pl P live v s)
    (hQ : ∀ s', At pl P live (v.emit ev) s' → Q () s') : wp (emit ev) Q E s :=
  wp_emit_cache h fun s' _ h' => hQ s' h'

/-- Reading the line of a pointer in use gives its address and its state in the view. -/
theorem wp_getLine {Q : CacheLine → State ι → Prop} (h : At pl P live v s) (hm : (r, p, a) ∈ live)
    (hQ : ∀ l : CacheLine, l.address = a → l.state = v.st r a → Q l s) : wp (getLine r p) Q E s :=
  hQ _ (h.line_address hm) (h.line_state hm)

/-- Reading a directory entry gives that of the view. -/
theorem wp_dirFind {Q : Option DirectoryEntry → State ι → Prop} (h : At pl P live v s)
    (hQ : Q (v.dir r a) s) : wp (dirFind r a) Q E s := by
  change Q ((s.cache r).directory a) s
  rw [h.dir_eq]
  exact hQ

/-- Reading any line leaves the state. -/
theorem wp_getLine_any {Q : CacheLine → State ι → Prop} (hQ : Q ((s.cache r).line p) s) :
    wp (getLine r p) Q E s := hQ

/-- The assertion that an entry is present holds when the view has one. -/
theorem wp_checkFound {Q : Unit → State ι → Prop} (h : At pl P live v s) {e : DirectoryEntry}
    (he : v.dir r a = some e) (hQ : Q () s) : wp (checkFound pl r a) Q E s := by
  refine .step (wp_dirFind h (wp_check (.inl ?_) hQ))
  rw [he]
  rfl

/-- The eviction notification is outside the view. -/
theorem wp_notifyVictim {Q : Unit → State ι → Prop} {isHit : Bool} (h : At pl P live v s)
    (hQ : ∀ s', s'.cache = s.cache → At pl P live v s' → Q () s') :
    wp (notifyVictim pl r isHit p) Q E s := by
  refine .step (wp_runIf (fun _ => ?_) fun _ => hQ s rfl h)
  exact hQ _ rfl ⟨h.distinct, h.wf, h.owns, h.place, h.view_eq⟩

/-- The place that a miss returns is free, or carries a line whose pointer may be used. -/
theorem At.victim (h : At pl P live v s) (hway : (s.cache r).Way p) :
    ((s.cache r).line p).state = .invalid ∨
      ∃ w, P w ∧ v.st r w ≠ .invalid ∧ At pl P (insert (r, p, w) live) v s := by
  by_cases hvalid : ((s.cache r).line p).state = .invalid
  · exact .inl hvalid
  · have ho := (h.wf r).owns hway hvalid
    refine .inr ⟨((s.cache r).line p).address, ((h.wf r).slot p hway hvalid).1, ?_, ?_⟩
    · rw [← h.st_eq, ho.stateOf_eq]
      exact hvalid
    · refine h.use ho fun q hq => ?_
      have hoq := h.owns r q _ hq
      exact (hoq.only p hway (ho.index.trans hoq.index.symm) hvalid rfl).symm

variable [DecidableEq ι]

/-- Changing one cache keeps the abstraction when the view is changed with it. -/
theorem At.modifyCache (h : At pl P live v s) (f : Cache → Cache) {v' : View ι}
    (hwf : (f (s.cache r)).WF (pl.cfg r) P)
    (howns : ∀ p a, (r, p, a) ∈ live → (f (s.cache r)).Owns (pl.cfg r).geometry p a)
    (hview : (s.modifyCache r f).view pl = v') : At pl P live v' (s.modifyCache r f) where
  distinct := h.distinct
  wf r' := by
    unfold State.modifyCache
    dsimp only
    by_cases heq : r' = r
    · subst heq
      rw [Function.update_self]
      exact hwf
    · rw [Function.update_of_ne heq]
      exact h.wf r'
  owns r' p a hm := by
    unfold State.modifyCache
    dsimp only
    by_cases heq : r' = r
    · subst heq
      rw [Function.update_self]
      exact howns p a hm
    · rw [Function.update_of_ne heq]
      exact h.owns r' p a hm
  place := h.place
  view_eq := hview

/-- A change of the lines of one cache changes the states of this cache in the view. -/
theorem view_modifyCache_st (h : At pl P live v s) (f : Cache → Cache)
    (hdir : (f (s.cache r)).directory = (s.cache r).directory) {st' : ℕ → CoherenceState}
    (hst : ∀ b, (f (s.cache r)).stateOf (pl.cfg r).geometry b = st' b) :
    (s.modifyCache r f).view pl =
      { v with st := fun r' b => if r' = r then st' b else v.st r' b } := by
  rw [← h.view_eq]
  unfold State.view State.modifyCache
  congr 1
  · funext r' b
    dsimp only
    by_cases heq : r' = r
    · subst heq
      rw [Function.update_self, if_pos rfl, hst]
    · rw [Function.update_of_ne heq, if_neg heq]
  · funext r'
    dsimp only
    by_cases heq : r' = r
    · subst heq
      rw [Function.update_self, hdir]
    · rw [Function.update_of_ne heq]

/-- Changing the state of the line of a pointer in use. -/
theorem wp_setState {Q : Unit → State ι → Prop} (h : At pl P live v s) (hm : (r, p, a) ∈ live)
    (hP : P a) {x : CoherenceState}
    (hQ : ∀ s', At pl P live (v.setSt r a x) s' → Q () s') : wp (setState r p x) Q E s := by
  have ho := h.owns r p a hm
  refine hQ _ (h.modifyCache _ ((h.wf r).setState x ho hP) (fun q b hq => ?_) ?_)
  · refine ho.setState x (h.owns r q b hq) fun hba => ?_
    subst hba
    exact h.place r q p b hq hm
  · rw [view_modifyCache_st h _ rfl (ho.stateOf_setState x)]
    unfold View.setSt
    congr 1
    funext r' b
    by_cases hr : r' = r
    · subst hr
      simp [h.st_eq]
    · simp [hr]

/-- Assigning a directory entry assigns it in the view. -/
theorem wp_dirSet {Q : Unit → State ι → Prop} (h : At pl P live v s) {e : DirectoryEntry}
    (hQ : ∀ s', At pl P live (v.setDir r a e) s' → Q () s') : wp (dirSet r a e) Q E s := by
  have hview : (s.modifyCache r fun c =>
      { c with directory := Function.update c.directory a (some e) }).view pl = v.setDir r a e := by
    rw [← h.view_eq]
    unfold State.view View.setDir State.modifyCache
    congr 1
    · funext r' b
      dsimp only
      by_cases hr : r' = r
      · subst hr
        rw [Function.update_self]
        rfl
      · rw [Function.update_of_ne hr]
    · funext r' b
      dsimp only
      by_cases hr : r' = r
      · subst hr
        by_cases hb : b = a
        · subst hb
          simp
        · simp [hb]
      · simp [hr]
  refine hQ _ (h.modifyCache _ ?_ (fun q b hq => ?_) hview)
  · obtain ⟨hpolicy, hslot, hunique⟩ := h.wf r
    exact ⟨hpolicy, hslot, hunique⟩
  · obtain ⟨hway, hindex, haddr, htag, honly⟩ := h.owns r q b hq
    exact ⟨hway, hindex, haddr, htag, honly⟩

/-- Reading a directory entry that is present gives that of the view. -/
theorem wp_dirAt {Q : DirectoryEntry → State ι → Prop} (h : At pl P live v s) {e : DirectoryEntry}
    (he : v.dir r a = some e) (hQ : Q e s) : wp (dirAt r a) Q E s := by
  refine .step (wp_dirFind h ?_)
  rw [he]
  exact hQ

/-- Changing a directory entry that is present changes it in the view. -/
theorem wp_dirModify {Q : Unit → State ι → Prop} (h : At pl P live v s) {e : DirectoryEntry}
    {f : DirectoryEntry → DirectoryEntry} (he : v.dir r a = some e)
    (hQ : ∀ s', At pl P live (v.setDir r a (f e)) s' → Q () s') : wp (dirModify r a f) Q E s :=
  wp.step (wp_dirAt h he (wp_dirSet h hQ))

/-- An assertion on an entry that is present passes when the entry of the view meets it. -/
theorem wp_checkDir {Q : Unit → State ι → Prop} (h : At pl P live v s) {e : DirectoryEntry}
    {c : DirectoryEntry → Prop} [DecidablePred c] (he : v.dir r a = some e)
    (hc : c e ∨ FailureAllowed pl E s) (hQ : Q () s) : wp (checkDir pl r a c) Q E s :=
  wp_runIf (fun _ => wp.step (wp_dirAt h he (wp_check hc hQ))) fun _ => hQ

/-- An assertion under a condition on an entry that is present if it is evaluated. -/
theorem wp_runIf_checkDir {Q : Unit → State ι → Prop} (h : At pl P live v s) {b : Prop} [Decidable b]
    {c : DirectoryEntry → Prop} [DecidablePred c]
    (hc : b → ∃ e, v.dir r a = some e ∧ (c e ∨ FailureAllowed pl E s)) (hQ : Q () s) :
    wp (runIf b (checkDir pl r a c)) Q E s := by
  refine wp_runIf (fun hb => ?_) fun _ => hQ
  obtain ⟨e, he, hce⟩ := hc hb
  exact wp_checkDir h he hce hQ

/-- A lookup finds the line of its address if the cache has it. The address may point inside the
line `a`. -/
theorem wp_lookup {Q : Bool × LineRef → State ι → Prop} {addr : ℕ} (h : At pl P live v s) (hP : P a)
    (hindex : (pl.cfg r).geometry.index addr = (pl.cfg r).geometry.index a)
    (htag : (pl.cfg r).geometry.tag addr = (pl.cfg r).geometry.tag a)
    (hstop : (pl.cfg r).replPolicy = .fifo → E .undefined s)
    (hhit : ∀ q s', v.st r a ≠ .invalid → At pl P (insert (r, q, a) live) v s' → Q (true, q) s')
    (hmiss : ∀ q s', v.st r a = .invalid → At pl P live v s' → (s'.cache r).Way q →
      q.index = (pl.cfg r).geometry.index a → Q (false, q) s') :
    wp (lookup pl r addr) Q E s := by
  refine .step ?_
  rw [wp_get]
  dsimp only
  rw [hindex, htag]
  cases hacc : ((s.cache r).sets ((pl.cfg r).geometry.index a)).accessSet
      ((pl.cfg r).geometry.tag a % wordSize) with
  | none =>
    refine hstop ?_
    rw [← (h.wf r).policy, CacheSet.policy_of_accessSet_eq_none hacc]
  | some res =>
    obtain ⟨⟨hit, way⟩, set'⟩ := res
    obtain ⟨hsame, hway, hres⟩ := (h.wf r).accessSet (h.distinct r) hP hacc
    have hat : At pl P live v (s.modifyCache r fun c =>
        { c with sets := Function.update c.sets ((pl.cfg r).geometry.index a) set' }) := by
      refine h.modifyCache _ (hsame.wf (h.wf r)) (fun q b hq => hsame.owns (h.owns r q b hq)) ?_
      rw [view_modifyCache_st h _ rfl hsame.stateOf_eq]
      obtain ⟨st, dir, trace⟩ := v
      congr 1
      funext r' b
      by_cases hr : r' = r
      · subst hr
        rw [if_pos rfl, h.st_eq]
      · rw [if_neg hr]
    cases hit with
    | true =>
      obtain ⟨ho, hvalid⟩ := hres
      rw [h.st_eq] at hvalid
      refine hhit _ _ hvalid (hat.use ?_ fun q hq => ?_)
      · rw [State.modifyCache_cache]
        exact hsame.owns ho
      · refine (((h.owns r q a hq).only _ hway ?_ ?_ ho.address)).symm
        · exact (h.owns r q a hq).index.symm
        · rw [CacheLine.Valid, ← ho.stateOf_eq, h.st_eq]
          exact hvalid
    | false =>
      rw [if_neg (by simp), h.st_eq] at hres
      refine hmiss _ _ hres hat ?_ rfl
      rw [State.modifyCache_cache]
      exact hsame.way_iff.2 hway

/-- A lookup whose miss allocates nothing leaves the view, and hits exactly the lines that are valid in
it. -/
theorem wp_lookup_either {Q : Bool × LineRef → State ι → Prop} (h : At pl P live v s) (hP : P a)
    (hstop : (pl.cfg r).replPolicy = .fifo → E .undefined s)
    (hQ : ∀ hit q live' s', live ⊆ live' → At pl P live' v s' →
      (hit = true ↔ v.st r a ≠ .invalid) → (hit = true → (r, q, a) ∈ live') → Q (hit, q) s') :
    wp (lookup pl r a) Q E s := by
  refine wp_lookup h hP rfl rfl hstop (fun q s' hvalid h' => ?_) fun q s' hinvalid h' _ _ => ?_
  · exact hQ true q _ s' (Set.subset_insert _ _) h' (by simpa using hvalid) fun _ => Set.mem_insert _ _
  · exact hQ false q _ s' le_rfl h' (by simpa using hinvalid) (by simp)

/-- Putting a new line into a place of a cache without pointers in use. -/
theorem At.setNewLine (h : At pl P live v s) (hfree : ∀ q b, (r, q, b) ∉ live)
    (hway : (s.cache r).Way p) (hindex : p.index = (pl.cfg r).geometry.index a)
    (habsent : v.st r a = .invalid) {handle : ℕ} {v' : View ι}
    (hview : (s.modifyCache r fun c => c.modifyLine p fun l =>
      l.setNewLine a ((pl.cfg r).geometry.tag a) handle).view pl = v') :
    At pl P (insert (r, p, a) live) v' (s.modifyCache r fun c => c.modifyLine p fun l =>
      l.setNewLine a ((pl.cfg r).geometry.tag a) handle) := by
  have hat := h.modifyCache (r := r) _ (h.wf r).setNewLine
    (fun q b hq => absurd hq (hfree q b)) hview
  refine hat.use ?_ fun q hq => absurd hq (hfree q a)
  rw [State.modifyCache_cache]
  exact Cache.Owns.of_setNewLine hway hindex (by rw [h.st_eq, habsent])

/-- Allocating a free place leaves the view and puts a pointer to the line in use. -/
theorem wp_setNewLine_of_invalid {Q : Unit → State ι → Prop} (h : At pl P live v s)
    (hfree : ∀ q b, (r, q, b) ∉ live) (hway : (s.cache r).Way p)
    (hindex : p.index = (pl.cfg r).geometry.index a) (habsent : v.st r a = .invalid)
    (hvacant : ((s.cache r).line p).state = .invalid) {handle : ℕ}
    (hQ : ∀ s', At pl P (insert (r, p, a) live) v s' → Q () s') :
    wp (setNewLine r p a ((pl.cfg r).geometry.tag a) handle) Q E s := by
  refine hQ _ (h.setNewLine hfree hway hindex habsent ?_)
  rw [view_modifyCache_st h _ rfl
    (Cache.stateOf_setNewLine_of_invalid fun hv => hv hvacant)]
  obtain ⟨st, dir, trace⟩ := v
  congr 1
  funext r' b
  by_cases hr : r' = r
  · subst hr
    rw [if_pos rfl, h.st_eq]
  · rw [if_neg hr]

/-- Allocating a place that carries a line takes that line out of the cache. -/
theorem wp_setNewLine_of_owns {Q : Unit → State ι → Prop} {w : ℕ}
    (h : At pl P (insert (r, p, w) live) v s) (hfree : ∀ q b, (r, q, b) ∉ live)
    (hindex : p.index = (pl.cfg r).geometry.index a) (habsent : v.st r a = .invalid) {handle : ℕ}
    (hQ : ∀ s', At pl P (insert (r, p, a) live) (v.setSt r w .invalid) s' → Q () s') :
    wp (setNewLine r p a ((pl.cfg r).geometry.tag a) handle) Q E s := by
  have ho := h.owns r p w (Set.mem_insert _ _)
  have h' := h.weaken (Set.subset_insert _ _)
  refine hQ _ (h'.setNewLine hfree ho.way hindex habsent ?_)
  rw [view_modifyCache_st h' _ rfl ho.stateOf_setNewLine]
  unfold View.setSt
  congr 1
  funext r' b
  by_cases hr : r' = r
  · subst hr
    simp [h.st_eq]
  · simp [hr]

end Rules

end Vpsim.Memory
