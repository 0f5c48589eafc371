import Vpsim.Memory.HomeSpec

/-!
# The home as its nodes see it

`accessCoherentHome` as a whole: the lookup, the replacement of a line of the home, and the
request itself.
-/

namespace Vpsim.Memory

open Vpsim.Lib

namespace Hierarchy

variable {n : ℕ} {H : Hierarchy n} {live : Set (CacheRef n × LineRef × ℕ)} {v v' : View (CacheRef n)}
  {s : State (CacheRef n)} {a b : ℕ} {i j : Fin n} {c : CoherenceCommand} {k k' : Holding}

/-- The requests of a node, with what it holds before and after. -/
inductive Requests : CoherenceCommand → Holding → Holding → Prop
  | read : Requests .getS .none .shared
  | demote : Requests .getS .modified .shared
  | own : Requests .getM .none .modified
  | upgrade : Requests .getM .shared .modified
  | dropShared : Requests .putS .shared .none
  | dropModified : Requests .putM .modified .none

/-- The node `j` holds `k` of the line in the eyes of the home when it sends `c`. A node that drops
a line may have done so already; one that asks for a line has not changed yet. -/
def Asks (H : Hierarchy n) (c : CoherenceCommand) (j : Fin n) (a : ℕ) (k : Holding)
    (v : View (CacheRef n)) : Prop :=
  ∃ hold, H.HomeIs (v.dir .home a) hold ∧ hold j = k ∧ (∀ i ≠ j, H.Node v a i (hold i)) ∧
    (c = .getS ∨ c = .getM → H.Node v a j (hold j))

/-- The home has served the request, and may have replaced another line of its own. -/
structure Answered (H : Hierarchy n) (j : Fin n) (a : ℕ) (k : Holding) (v v' : View (CacheRef n)) :
    Prop where
  st : ∀ r b, r ≠ .home → b ≠ a → v'.st r b = v.st r b
  dir : ∀ r b, b ≠ a → v'.dir r b = v.dir r b
  same : SameNode a j v v'
  inv : ∀ b, H.HomeInv v' b
  hold : ∃ hold, H.HomeIs (v'.dir .home a) hold ∧ hold j = k ∧ ∀ i ≠ j, H.Node v' a i (hold i)

/-- The entries of the home are in normal form. -/
theorem HomeIs.normal {hold : Fin n → Holding} {e : DirectoryEntry} (hhome : H.HomeIs (some e) hold)
    (h : H.Sees live v s) : e.Normal ∨ FailureAllowed H.toPlatform H.Stops s := by
  cases hhome with
  | uncached hD _ =>
    obtain rfl : e = .uncached := by simpa using hD
    exact .inl (.inl ⟨rfl, rfl, rfl⟩)
  | shared T hT hD _ =>
    obtain rfl : e = .sharedBy (T.image H.l2Id) := by simpa using hD
    exact .inl (.inr (.inl ⟨rfl, rfl, (hT.image _).ne_empty⟩))
  | owned o hD _ =>
    obtain rfl : e = .ownedBy (H.l2Id o) := by simpa using hD
    exact (check_id (r := .l2 o) h).imp_left fun hid => .inr (.inr ⟨rfl, hid, rfl⟩)

/-- A request for a line that the home has or has just allocated is served. -/
theorem homeAllocating_spec (hreq : Requests c k k') (h : H.Sees live v s) (ha : H.IsLine a)
    {p : LineRef} (hp : (.home, p, a) ∈ live) {hit : Bool}
    (hhit : hit = true ↔ v.st .home a ≠ .invalid)
    (hmissx : c = .getS ∨ c = .getM → hit = false → ¬ H.Exclusive) (hinv : H.HomeInv v a)
    (hask : H.Asks c j a k v)
    (hev : .homeRequest c (H.l2Id j) a (v.st .home a) (v.dir .home a) ∈ v.trace) :
    wp (homeAllocating H.toPlatform H.homePorts .home c hit p a (H.l2Id j))
      (fun _ s' => ∃ v', H.Sees live v' s' ∧ H.Served j a k' v v') H.Stops s := by
  obtain ⟨hold, hhome, hj, hothers, hself⟩ := hask
  have hnode (hc : c = .getS ∨ c = .getM) (i : Fin n) : H.Node v a i (hold i) := by
    by_cases hi : i = j
    · exact hi ▸ hself hc
    · exact hothers i hi
  have hend {s₁} (hs₁ : ∃ v₁, H.Sees live v₁ s₁ ∧ H.Served j a k' v v₁) :
      wp (do
        let line ← getLine .home p
        let found ← dirFind .home line.address
        runIf (found.isSome = true) (checkDir H.toPlatform .home a fun e => e.Normal))
        (fun _ s' => ∃ v', H.Sees live v' s' ∧ H.Served j a k' v v') H.Stops s₁ := by
    obtain ⟨v₁, h₁, hserved⟩ := hs₁
    refine .step (wp_getLine h₁ hp fun line haddr _ => ?_)
    rw [haddr]
    refine .step (wp_dirFind h₁ (wp_runIf_checkDir h₁ (fun hsome => ?_) ⟨v₁, h₁, hserved⟩))
    obtain ⟨e, he⟩ := Option.isSome_iff_exists.1 hsome
    obtain ⟨hold₁, hhome₁, -⟩ := hserved.hold
    rw [he] at hhome₁
    exact ⟨e, he, hhome₁.normal h₁⟩
  cases hreq with
  | read =>
    exact .bind (homeGetS_spec h ha hp hhit (hmissx (.inl rfl)) hinv (hnode (.inl rfl)) hhome hev)
      fun _ _ => hend
  | demote =>
    exact .bind (homeGetS_spec h ha hp hhit (hmissx (.inl rfl)) hinv (hnode (.inl rfl)) hhome hev)
      fun _ _ => hend
  | own =>
    exact .bind (homeGetM_spec h ha hp hhit (hmissx (.inr rfl)) hinv (hnode (.inr rfl)) hhome
      (by simp [hj]) hev) fun _ _ => hend
  | upgrade =>
    exact .bind (homeGetM_spec h ha hp hhit (hmissx (.inr rfl)) hinv (hnode (.inr rfl)) hhome
      (by simp [hj]) hev) fun _ _ => hend
  | dropShared => exact .bind (homePutS_spec h ha hp hinv hothers hhome hj) fun _ _ => hend
  | dropModified => exact .bind (homePutM_spec h ha hp hothers hhome hj) fun _ _ => hend

/-- The record of a request keeps the invariant of the home's own lines. -/
theorem HomeInv.request (hinv : H.HomeInv v b) {id : ℕ} {x : CoherenceState}
    {e : Option DirectoryEntry} : H.HomeInv (v.emit (.homeRequest c id a x e)) b where
  present := hinv.present
  exclusive := hinv.exclusive
  excluded hx hm := hinv.excluded hx fun e he => hm e (List.mem_cons_of_mem _ he)
  dirty hd hm := hinv.dirty hd fun hx e he => hm hx e (List.mem_cons_of_mem _ he)
  strict hx := hinv.strict fun hx' => hx (Excused.append (l := [_]) hx')

/-- A home that replaces a clean line keeps its invariant. -/
theorem HomeInv.evict (hinv : H.HomeInv v b)
    (hclean : v.st .home b = .modified → ¬ Dirty b v.trace) :
    H.HomeInv (v.setSt .home b .invalid) b where
  present hst := absurd View.setSt_at hst
  exclusive _ hst := by simp at hst
  excluded _ _ hst := absurd View.setSt_at hst
  dirty hd hm := by
    rcases hinv.dirty hd hm with ho | hM
    · exact .inl ho
    · exact absurd hd (hclean hM)
  strict _ hst := by simp at hst

/-- The home has replaced a line of its own that is not `a`. -/
structure Replaced (H : Hierarchy n) (a : ℕ) (v v' : View (CacheRef n)) : Prop where
  st : ∀ r b, (r = .home → b = a) → v'.st r b = v.st r b
  dir : v'.dir = v.dir
  trace : ∀ e ∈ v.trace, e ∈ v'.trace
  hits : ∀ e ∈ v'.trace, e.SharedHit → e ∈ v.trace
  inv : (∀ b, H.HomeInv v b) → ∀ b, H.HomeInv v' b

/-- Replacing the line `w`, which has been written to the memory if it was modified. -/
theorem replaced_of_evict {w : ℕ} (hw : w ≠ a) (hat : AtLine w v v') (hst : v'.st = v.st)
    (hdir : v'.dir = v.dir) (hclean : v'.st .home w = .modified → ¬ Dirty w v'.trace) :
    H.Replaced a v (v'.setSt .home w .invalid) where
  st r b hrb := by
    rw [View.setSt_st, if_neg, hst]
    rintro ⟨hr, rfl⟩
    exact hw (hrb hr)
  dir := hdir
  trace e he := hat.mem_trace he
  hits e he hhit := hat.hits he hhit
  inv hinv b := by
    by_cases hb : b = w
    · subst hb
      refine HomeInv.evict ?_ hclean
      obtain ⟨hpresent, hexclusive, hexcluded, hdirty, hstrict⟩ := hinv b
      refine ⟨?_, ?_, fun hx hm => ?_, fun hd hm => ?_, fun hx => ?_⟩
      · rwa [hst, hdir]
      · rwa [hst, hdir]
      · rw [hst, hdir]
        exact hexcluded hx fun e he => hm e (hat.mem_trace he)
      · rw [hst, hdir]
        exact hdirty (hat.dirty_of hd) fun hx e he => hm hx e (hat.mem_trace he)
      · rw [hst, hdir]
        exact hstrict (mt hat.excused hx)
    · exact (hat.setSt _ _).homeInv hb (hinv b)

/-- On a miss the home writes a modified victim to the memory and allocates its place. -/
theorem wp_replaceLine (h : H.Sees live v s) (hfree : ∀ q b, (.home, q, b) ∉ live) {p : LineRef}
    (hway : (s.cache .home).Way p) (hindex : p.index = (H.cfg .home).geometry.index a)
    (habsent : v.st .home a = .invalid) {Q : Unit → State (CacheRef n) → Prop}
    {k : CacheM (CacheRef n) Unit} {handle : ℕ}
    (hk : ∀ v' s', H.Sees (insert (.home, p, a) live) v' s' → H.Replaced a v v' → wp k Q H.Stops s') :
    wp (do
      let line ← getLine .home p
      runIf (false = false ∧ line.state = .modified ∧ (H.cfg .home).writePolicy = .wBack)
        (H.homePorts.forwardWriteData line.address)
      allocate H.toPlatform .home false p a a handle
      k) Q H.Stops s := by
  have hallocate : false = false ∧ (H.cfg .home).allocPolicy = .wAllocate :=
    ⟨rfl, H.writeAllocate _⟩
  rcases h.victim hway with hvacant | ⟨w, hw, hvalid, hwp⟩
  · refine .step (wp_getLine_any (.step (wp_runIf_neg (by simp [hvacant]) (.step ?_))))
    refine wp_runIf_pos hallocate (wp_setNewLine_of_invalid h hfree hway hindex habsent hvacant ?_)
    intro s₁ h₁
    exact hk v s₁ h₁ ⟨fun _ _ _ => rfl, rfl, fun _ he => he, fun _ he _ => he, fun hinv => hinv⟩
  · have hwa : w ≠ a := fun heq => hvalid (heq ▸ habsent)
    refine .step (wp_getLine hwp (Set.mem_insert _ _) fun line haddr hst => .step ?_)
    rw [haddr]
    refine wp_runIf (fun hm => ?_) fun hm => ?_
    · refine wp_emit hwp fun s₁ h₁ => .step (wp_runIf_pos hallocate ?_)
      refine wp_setNewLine_of_owns h₁ hfree hindex habsent fun s₂ h₂ => hk _ s₂ h₂ ?_
      exact replaced_of_evict hwa (AtLine.refl.emit (.inr rfl)) rfl rfl fun _ hd => hd.1 rfl
    · refine .step (wp_runIf_pos hallocate ?_)
      refine wp_setNewLine_of_owns hwp hfree hindex habsent fun s₂ h₂ => hk _ s₂ h₂ ?_
      refine replaced_of_evict hwa .refl rfl rfl fun hM => absurd ?_ hm
      exact ⟨rfl, hst.trans hM, H.writeBack _⟩

/-- A home that serves a request answers it, whether it has replaced a line or not. -/
theorem Served.answered {v₁ : View (CacheRef n)} (hs : H.Served j a k v₁ v') (hrep : H.Replaced a v v₁)
    (hinv : ∀ b, H.HomeInv v b) : H.Answered j a k v v' where
  st r b hr hb := (hs.atLine.st r b hb).trans (hrep.st r b fun h => absurd h hr)
  dir r b hb := by rw [hs.atLine.dir r b hb, hrep.dir]
  same := SameNode.trans ⟨hrep.st _ _ (by simp), hrep.st _ _ (by simp), by rw [hrep.dir]⟩ hs.same
  inv b := by
    by_cases hb : b = a
    · exact hb ▸ hs.inv
    · exact hs.atLine.homeInv hb (hrep.inv hinv b)
  hold := hs.hold

/-- What a node asks does not depend on the home's own lines. -/
theorem Asks.replaced (hask : H.Asks c j a k v) (hrep : H.Replaced a v v') : H.Asks c j a k v' := by
  obtain ⟨hold, hhome, hj, hothers, hself⟩ := hask
  have hsame (i : Fin n) : SameNode a i v v' :=
    ⟨hrep.st _ _ (by simp), hrep.st _ _ (by simp), by rw [hrep.dir]⟩
  refine ⟨hold, by rwa [hrep.dir], hj, fun i hi => ?_, fun hc => ?_⟩
  · exact (hsame i).node.2 (hothers i hi)
  · exact (hsame j).node.2 (hself hc)

/-- A request of a node to the home is answered, and it is the only new request. -/
theorem accessCoherentHome_spec (hreq : Requests c k k') (h : H.Sees live v s)
    (hfree : ∀ q b, (.home, q, b) ∉ live) (ha : H.IsLine a) (hinv : ∀ b, H.HomeInv v b)
    (hask : H.Asks c j a k v) :
    wp (accessCoherentHome H.toPlatform H.homePorts .home c
        (H.cfg (.l2 j)).geometry.cacheLineSize a (H.l2Id j) 0)
      (fun _ s' => ∃ v', H.Sees live v' s' ∧ H.Answered j a k' v v' ∧ ∀ e ∈ v'.trace, e.SharedHit →
        e ∈ (v.emit (.homeRequest c (H.l2Id j) a (v.st .home a) (v.dir .home a))).trace) H.Stops s := by
  obtain ⟨v₁, hv₁⟩ : ∃ v₁, v₁ = v.emit (.homeRequest c (H.l2Id j) a (v.st .home a) (v.dir .home a)) :=
    ⟨_, rfl⟩
  have hinv₁ (b : ℕ) : H.HomeInv v₁ b := hv₁ ▸ (hinv b).request
  have hask₁ : H.Asks c j a k v₁ := hv₁ ▸ hask
  have hev : .homeRequest c (H.l2Id j) a (v₁.st .home a) (v₁.dir .home a) ∈ v₁.trace := by
    rw [hv₁]
    exact List.mem_cons_self
  have hfinal {v'} (hans : H.Answered j a k' v₁ v') : H.Answered j a k' v v' := by
    subst hv₁
    obtain ⟨hst, hdir, hsame, hinv', hhold⟩ := hans
    exact ⟨hst, hdir, ⟨hsame.l1, hsame.l2, hsame.dir⟩, hinv', hhold⟩
  rw [← hv₁]
  have hentry (hst : v.st .home a = .modified) {s'} {live'} (h' : H.Sees live' v₁ s') :
      ∃ e, v₁.dir .home a = some e ∧ (e.state ≠ .modified ∨ FailureAllowed H.toPlatform H.Stops s') := by
    obtain ⟨hold, hhome, -⟩ := hask₁
    have hst₁ : v₁.st .home a = .modified := by rw [hv₁, View.emit_st, hst]
    obtain ⟨e, he⟩ := (hinv₁ a).present (by simp [hst₁])
    refine ⟨e, he, ?_⟩
    by_cases hx : H.Excused v₁.trace
    · exact .inr (stops_of_excused h' hx)
    · refine .inl fun hes => ?_
      have hnot := (hinv₁ a).strict hx hst₁
      rw [he] at hhome hnot
      cases hhome with
      | uncached hD _ =>
        obtain rfl : e = .uncached := by simpa using hD
        simp [DirectoryEntry.uncached] at hes
      | shared T _ hD _ =>
        obtain rfl : e = .sharedBy (T.image H.l2Id) := by simpa using hD
        simp [DirectoryEntry.sharedBy] at hes
      | owned o hD _ => exact hnot _ hD
  refine .step (wp_lookup h ha rfl rfl (fun hf => ⟨_, hf⟩) (fun p s₁ hst h₁ => ?_)
    fun p s₁ hst h₁ hway hindex => ?_)
  · refine .step (wp_getLine h₁ (Set.mem_insert _ _) fun line haddr hline => .step (wp_dirFind h₁ ?_))
    refine .step (wp_emit h₁ fun s₂ h₂ => ?_)
    simp only [if_true, hline] at h₂
    rw [← hv₁] at h₂
    have hp := Set.mem_insert (CacheRef.home, p, a) live
    refine .step (wp_check (check_id (r := .l2 j) h₂) (.step (wp_check (.inl (ha.offset_eq _)) ?_)))
    refine .step (wp_check (.inl (by rw [H.lineSize_eq, H.lineSize_eq])) (.step (wp_check (.inl ?_) ?_)))
    · rw [haddr, Nat.sub_self]
      exact .inr ⟨le_rfl, lineSize_pos _⟩
    refine .step (wp_check (.inl (.inr haddr.symm)) (.step (wp_runIf_checkDir h₂ (fun hm => ?_) ?_)))
    · exact hentry (hline.symm.trans hm.2) h₂
    refine .step (wp_notifyVictim h₂ fun s₃ _ h₃ => .ite_neg (by simp) (.ite_neg (by simp) ?_))
    refine .step (wp_getLine_any (.step (wp_runIf_neg (by simp) (.step (wp_runIf_neg (by simp) ?_)))))
    refine .step (wp_getLine h₃ hp fun line' haddr' _ => .step (wp_check (.inl haddr'.symm) ?_))
    refine .mono (homeAllocating_spec hreq h₃ ha hp ?_ (by simp) (hinv₁ a) hask₁ hev) ?_
    · simpa [hv₁] using hst
    rintro - s' ⟨v', h', hserved⟩
    refine ⟨v', h'.weaken (Set.subset_insert _ _), hfinal (hserved.answered ?_ hinv₁),
      fun _ he hh => hserved.atLine.hits he hh⟩
    exact ⟨fun _ _ _ => rfl, rfl, fun _ he => he, fun _ he _ => he, fun hi => hi⟩
  · refine .step (wp_getLine_any (.step (wp_dirFind h₁ (.step (wp_emit_cache h₁ fun s₂ hs₂ h₂ => ?_)))))
    simp only [Bool.false_eq_true, if_false] at h₂
    rw [← hst, ← hv₁] at h₂
    have hst₁ : v₁.st .home a = .invalid := by rw [hv₁, View.emit_st, hst]
    refine .step (wp_check (check_id (r := .l2 j) h₂) (.step (wp_check (.inl (ha.offset_eq _)) ?_)))
    refine .step (wp_check (.inl (by rw [H.lineSize_eq, H.lineSize_eq])) ?_)
    refine .step (wp_check (.inl (.inl rfl)) (.step (wp_check (.inl (.inl rfl)) ?_)))
    refine .step (wp_runIf_neg (by simp) (.step (wp_notifyVictim h₂ fun s₃ hs₃ h₃ => ?_)))
    have hrefl : H.Replaced a v₁ v₁ :=
      ⟨fun _ _ _ => rfl, rfl, fun _ he => he, fun _ he _ => he, fun hi => hi⟩
    have hdone {s'} (hs : ∃ v', H.Sees live v' s' ∧ H.Served j a k' v₁ v') :
        ∃ v', H.Sees live v' s' ∧ H.Answered j a k' v v' ∧ ∀ e ∈ v'.trace, e.SharedHit → e ∈ v₁.trace := by
      obtain ⟨v', h', hserved⟩ := hs
      exact ⟨v', h', hfinal (hserved.answered hrefl hinv₁), fun _ he hh => hserved.atLine.hits he hh⟩
    have hserve (hmissx : c = .getS ∨ c = .getM → ¬ H.Exclusive) :
        wp (homeServe H.toPlatform H.homePorts .home c false p a (H.l2Id j) 0)
          (fun _ s' => ∃ v', H.Sees live v' s' ∧ H.Answered j a k' v v' ∧
            ∀ e ∈ v'.trace, e.SharedHit → e ∈ v₁.trace) H.Stops s₃ := by
      have hway₃ : (s₃.cache .home).Way p := by rwa [hs₃, hs₂]
      refine wp_replaceLine h₃ hfree hway₃ hindex hst₁ fun v₂ s₄ h₄ hrep => ?_
      have hp := Set.mem_insert (CacheRef.home, p, a) live
      have hst₂ : v₂.st .home a = v₁.st .home a := hrep.st _ _ fun _ => rfl
      refine .step (wp_getLine h₄ hp fun line haddr _ => .step (wp_check (.inl haddr.symm) ?_))
      refine .mono (homeAllocating_spec hreq h₄ ha hp ?_ (fun hc _ => hmissx hc) (hrep.inv hinv₁ a)
        (hask₁.replaced hrep) ?_) ?_
      · simp [hst₂, hst₁]
      · rw [hst₂, hrep.dir]
        exact hrep.trace _ hev
      · rintro - s' ⟨v', h', hserved⟩
        exact ⟨v', h'.weaken (Set.subset_insert _ _), hfinal (hserved.answered hrep hinv₁),
          fun e he hh => hrep.hits e (hserved.atLine.hits he hh) hh⟩
    obtain ⟨hold, hhome, hj, hothers, hself⟩ := hask₁
    have hnode (hc : c = .getS ∨ c = .getM) (i : Fin n) : H.Node v₁ a i (hold i) := by
      by_cases hi : i = j
      · exact hi ▸ hself hc
      · exact hothers i hi
    -- An exclusive home serves a missing line that a node asks for without allocating it.
    by_cases hgetS : H.Exclusive ∧ false = false ∧ c = .getS
    · obtain ⟨hx, -, rfl⟩ := hgetS
      obtain rfl : k' = .shared := by cases hreq <;> rfl
      exact .ite_pos ⟨hx, rfl, rfl⟩ (.mono (homeMissGetS_spec h₃ ha hx hst₁ (hinv₁ a) (hnode (.inl rfl))
        hhome hev) fun _ _ => hdone)
    · by_cases hgetM : H.Exclusive ∧ false = false ∧ c = .getM
      · obtain ⟨hx, -, rfl⟩ := hgetM
        obtain ⟨rfl, hk⟩ : k' = .modified ∧ k ≠ .modified := by cases hreq <;> simp
        exact .ite_neg hgetS (.ite_pos ⟨hx, rfl, rfl⟩ (.mono (homeMissGetM_spec h₃ ha hst₁
          (hnode (.inr rfl)) hhome (hj ▸ hk)) fun _ _ => hdone))
      · refine .ite_neg hgetS (.ite_neg hgetM (hserve fun hc hx => ?_))
        rcases hc with hc | hc
        · exact hgetS ⟨hx, rfl, hc⟩
        · exact hgetM ⟨hx, rfl, hc⟩

end Hierarchy

end Vpsim.Memory
