import Vpsim.Lib.Run
import Vpsim.Memory.Coherence

/-!
# An exclusive home

An exclusive home gives up its copy of a line when an upper cache takes the line. It does so for
every request but one: when a node asks to own a line of which the home has a clean copy, the copy
stays. A run is watched after each request that the home answers, and stops as soon as the home has
a line that its directory says an upper cache holds. It does not get there as long as no request to
own a line finds a clean copy, and the first such request that is answered stops it.
-/

namespace Vpsim.Memory

open Vpsim.Lib

namespace Hierarchy

variable {n : ℕ} {H : Hierarchy n} {live : Set (CacheRef n × LineRef × ℕ)} {v : View (CacheRef n)}
  {s : State (CacheRef n)} {a : ℕ} {j : Fin n}

/-- Every valid line of the home has a directory entry in state invalid. -/
def Excludes (H : Hierarchy n) (s : State (CacheRef n)) : Prop :=
  ∀ index < (H.cfg .home).geometry.nbSets, ∀ way < ((s.cache .home).sets index).associativity,
    ((s.cache .home).line ⟨index, way⟩).Valid →
      ∃ e ∈ (s.cache .home).directory ((s.cache .home).line ⟨index, way⟩).address, e.state = .invalid

instance (s : State (CacheRef n)) : Decidable (H.Excludes s) := by
  unfold Excludes
  infer_instance

/-- The home, watched: the run stops after a request that leaves it with a line of an upper cache. -/
def watch (H : Hierarchy n) (t : Transaction) : CacheM (CacheRef n) Unit := do
  H.toHome t
  let s ← get
  runIf (¬ H.Excludes s) (throw .undefined)

/-- The home excludes the lines of the upper caches if no entry of a line that it has names any. -/
theorem excludes_of_view (h : H.Sees live v s)
    (hv : ∀ b, v.st .home b ≠ .invalid → v.dir .home b = some .uncached) : H.Excludes s := by
  intro index _ way hway hvalid
  have hst := (h.wf .home).stateOf_line (p := ⟨index, way⟩) hway hvalid
  rw [h.st_eq] at hst
  refine ⟨.uncached, ?_, rfl⟩
  rw [h.dir_eq]
  exact hv _ (hst.symm ▸ hvalid)

/-- It does not exclude a line that it has and that a node owns. -/
theorem not_excludes_of_owned {o : ℕ} (h : H.Sees live v s) (hst : v.st .home a = .shared)
    (hdir : v.dir .home a = some (.ownedBy o)) : ¬ H.Excludes s := by
  intro hex
  obtain ⟨p, hindex, hway, haddr, hp⟩ := holds_of_st h (by simp) hst
  obtain ⟨e, he, hinvalid⟩ := hex p.index hindex p.way hway (by rw [CacheLine.Valid, hp]; simp)
  change e ∈ (s.cache .home).directory ((s.cache .home).line p).address at he
  rw [haddr, h.dir_eq, hdir] at he
  obtain rfl := Option.mem_some.1 he
  cases hinvalid

/-- A request to own a line of which an exclusive home has a clean copy, and that no node holds:
the copy stays. -/
theorem accessCoherentHome_sharedHit (h : H.Sees live v s) (ha : H.IsLine a)
    (hst : v.st .home a = .shared) (hdir : v.dir .home a = some .uncached) :
    wp (accessCoherentHome H.toPlatform H.homePorts .home .getM
        (H.cfg (.l2 j)).geometry.cacheLineSize a (H.l2Id j) 0)
      (fun _ s' => ¬ H.Excludes s' ∧ ∃ e ∈ s'.trace, e.SharedHit) H.Stops s := by
  refine .step (wp_lookup h ha rfl rfl (fun hf => ⟨_, hf⟩) (fun p s₁ _ h₁ => ?_)
    fun p s₁ hmiss => by rw [hst] at hmiss; cases hmiss)
  have hp := Set.mem_insert (CacheRef.home, p, a) live
  refine .step (wp_getLine h₁ hp fun line haddr hline => .step (wp_dirFind h₁ ?_))
  refine .step (wp_emit h₁ fun s₂ h₂ => ?_)
  simp only [if_true, hline, hst, hdir] at h₂
  refine .step (wp_check (check_id (r := .l2 j) h₂) (.step (wp_check (.inl (ha.offset_eq _)) ?_)))
  refine .step (wp_check (.inl (by rw [H.lineSize_eq, H.lineSize_eq])) (.step (wp_check (.inl ?_) ?_)))
  · rw [haddr, Nat.sub_self]
    exact .inr ⟨le_rfl, lineSize_pos _⟩
  refine .step (wp_check (.inl (.inr haddr.symm)) (.step (wp_runIf_checkDir h₂ (fun hm => ?_) ?_)))
  · rw [hline, hst] at hm
    cases hm.2
  refine .step (wp_notifyVictim h₂ fun s₃ _ h₃ => .ite_neg (by simp) (.ite_neg (by simp) ?_))
  refine .step (wp_getLine_any (.step (wp_runIf_neg (by simp) (.step (wp_runIf_neg (by simp) ?_)))))
  refine .step (wp_getLine h₃ hp fun line' haddr' _ => .step (wp_check (.inl haddr'.symm) ?_))
  obtain ⟨v₁, hv₁⟩ : ∃ v₁, v₁ = v.emit (.homeRequest .getM (H.l2Id j) a .shared (some .uncached)) :=
    ⟨_, rfl⟩
  rw [← hv₁] at h₃
  have hst₁ : v₁.st .home a = .shared := hv₁ ▸ hst
  have hdir₁ : v₁.dir .home a = some .uncached := hv₁ ▸ hdir
  have hev : ∃ e ∈ v₁.trace, e.SharedHit := hv₁ ▸ ⟨_, List.mem_cons_self, trivial⟩
  refine wp.bind (R := fun _ s' => ∃ v', H.Sees (insert (.home, p, a) live) v' s' ∧
    v'.st .home a = .shared ∧ v'.dir .home a = some (.ownedBy (H.l2Id j)) ∧
    ∃ e ∈ v'.trace, e.SharedHit) ?_ ?_
  · refine .step (wp_getLine h₃ hp fun line haddr hline => ?_)
    rw [haddr]
    refine .step (wp_dirFind h₃ ?_)
    rw [hdir₁]
    refine .step (wp_check (.inl rfl) (.step (wp_check (.inl rfl) (.step ?_))))
    refine .step (wp_getLine h₃ hp fun line' _ hline' => wp_runIf_neg ?_ ?_)
    · rw [hline', hst₁]
      rintro ⟨-, hm⟩
      cases hm
    · refine .step (wp_dirSet h₃ fun s₄ h₄ => wp_checkEntry h₄ View.setDir_at ?_ ?_ ?_ ?_)
      · rfl
      · rfl
      · rfl
      · exact ⟨_, h₄, hst₁, View.setDir_at, hev⟩
  · rintro - s₄ ⟨v₂, h₄, hst₂, hdir₂, hev₂⟩
    refine .step (wp_getLine h₄ hp fun line haddr _ => ?_)
    rw [haddr]
    refine .step (wp_dirFind h₄ (wp_runIf_checkDir h₄ (fun _ => ⟨_, hdir₂, ?_⟩) ?_))
    · exact (check_id (r := .l2 j) h₄).imp_left fun hid => .inr (.inr ⟨rfl, hid, rfl⟩)
    · exact ⟨not_excludes_of_owned h₄ hst₂ hdir₂, h₄.trace_eq ▸ hev₂⟩

/-- A request for a clean copy is a `GetM` for a line that the home shares. -/
theorem sharedHit_homeRequest {c : CoherenceCommand} {id : ℕ} {x : CoherenceState}
    {e : Option DirectoryEntry} (h : (Event.homeRequest c id a x e).SharedHit) : c = .getM ∧ x = .shared := by
  unfold Event.SharedHit at h
  split at h
  · rename_i heq
    injection heq with hc _ _ hx
    exact ⟨hc, hx⟩
  · exact h.elim

/-- The watched home answers the requests of the nodes. It stops after the first request for a clean
copy. -/
theorem serves_watch (hx : H.Exclusive) :
    H.Serves (fun e s => H.Stops e s ∨ e = .undefined ∧ ¬ H.Excludes s ∧ ∃ ev ∈ s.trace, ev.SharedHit)
      (fun v => (∀ b, H.HomeInv v b) ∧ ∀ e ∈ v.trace, ¬ e.SharedHit) H.watch where
  stops _ _ h := .inl h
  node hl hinv := ⟨fun b => hl.homeInv (hinv.1 b), by rw [hl.trace]; exact hinv.2⟩
  write howned hinv := by
    refine ⟨fun b => (hinv.1 b).cpuWrite howned, fun e he hh => ?_⟩
    rcases List.mem_cons.1 he with rfl | he
    · exact hh
    · exact hinv.2 e he hh
  serve {live v s a j c k k'} hreq h hfree ha hinv hask := by
    obtain ⟨hhome, hno⟩ := hinv
    by_cases hhit : c = .getM ∧ v.st .home a = .shared
    · obtain ⟨rfl, hst⟩ := hhit
      have hdir := (hhome a).excluded hx hno (by simp [hst])
      refine .step ((accessCoherentHome_sharedHit h ha hst hdir).imp (fun _ s₁ hs => ?_)
        fun _ _ h => .inl h)
      exact .step (wp_runIf_pos hs.1 (.inr ⟨rfl, hs⟩))
    · refine .step ((accessCoherentHome_spec hreq h hfree ha hhome hask).imp (fun _ s₁ hs => ?_)
        fun _ _ h => .inl h)
      obtain ⟨v₁, h₁, hans, hhits⟩ := hs
      have hno₁ (e) (he : e ∈ v₁.trace) : ¬ e.SharedHit := by
        intro hh
        rcases List.mem_cons.1 (hhits e he hh) with rfl | he
        · exact hhit (sharedHit_homeRequest hh)
        · exact hno e he hh
      have hex : H.Excludes s₁ := excludes_of_view h₁ fun b hb => (hans.inv b).excluded hx hno₁ hb
      refine .step (wp_runIf_neg (not_not.2 hex) ?_)
      exact ⟨v₁, h₁, hans, hans.inv, hno₁⟩

/-- In the run the home has no line of an upper cache after any request that it answers: the run is
not stopped for it. -/
def ExcludesThroughout (H : Hierarchy n) (xs : List (CpuAccess n)) : Prop :=
  ∀ s, H.runOver H.watch xs (.init H.toPlatform) = .error .undefined s → H.Excludes s

/-- An exclusive home has no line of an upper cache after any request of a run if and only if no
request to own a line finds a clean copy of it in the home, or an assertion ends the run before. -/
theorem excludes_throughout_iff (hx : H.Exclusive) {xs : List (CpuAccess n)} (hxs : ∀ x ∈ xs, H.Fits x) :
    (∃ r, (H.cfg r).replPolicy = .fifo) ∨
      (H.ExcludesThroughout xs ↔
        (∀ e ∈ (endState (H.runOver H.watch xs (.init H.toPlatform))).trace, ¬ e.SharedHit) ∨
          ∃ s, H.runOver H.watch xs (.init H.toPlatform) = .error .assertion s) := by
  have hspec := runOver_spec (serves_watch hx) hxs sees_init
    ⟨inv_empty.precise, inv_empty.home, fun e he => by cases he⟩
  unfold ExcludesThroughout
  cases hrun : H.runOver H.watch xs (.init H.toPlatform) with
  | ok u s =>
    obtain ⟨v, h, hinv⟩ := hspec.of_ok hrun
    refine .inr ⟨fun _ => .inl ?_, fun _ t ht => by cases ht⟩
    rw [endState, h.trace_eq]
    exact hinv.home.2
  | error e s =>
    have hstop := hspec.of_error hrun
    cases e with
    | assertion => exact .inr ⟨fun _ => .inr ⟨s, rfl⟩, fun _ t ht => by cases ht⟩
    | undefined =>
      rcases hstop with hfifo | ⟨-, hnot, ev, hev, hhit⟩
      · exact .inl hfifo
      · refine .inr ⟨fun hall => absurd (hall s rfl) hnot, fun hor => ?_⟩
        rcases hor with hno | ⟨t, ht⟩
        · exact absurd hhit (hno ev hev)
        · cases ht

/-- The reads meet the condition. -/
theorem excludes_throughout_readFour :
    (∃ r, ((twoNodes .exclusive true).cfg r).replPolicy = .fifo) ∨
      ((twoNodes .exclusive true).ExcludesThroughout readFour ↔
        (∀ e ∈ (endState ((twoNodes .exclusive true).runOver (twoNodes .exclusive true).watch readFour
          (.init (twoNodes .exclusive true).toPlatform))).trace, ¬ e.SharedHit) ∨
          ∃ s, (twoNodes .exclusive true).runOver (twoNodes .exclusive true).watch readFour
            (.init (twoNodes .exclusive true).toPlatform) = .error .assertion s) := by
  have hx : (twoNodes .exclusive true).Exclusive := rfl
  exact excludes_throughout_iff hx (by simp [readFour, fits_twoNodes])

/-- The other node then writes the line that the first one has dropped, of which the home has a clean
copy, and the home keeps it. -/
theorem clean_copy_kept : ¬ ∀ (n : ℕ) (H : Hierarchy n), H.Exclusive →
    ∀ xs : List (CpuAccess n), (∀ x ∈ xs, H.Fits x) → H.ExcludesThroughout xs := by
  intro hclaim
  have hall := hclaim 2 (twoNodes .exclusive true) rfl (readFour ++ [⟨1, true, 1, 64, 0, 0⟩])
    (by simp [readFour, fits_twoNodes])
  have hstops : stopsWith (fun e s => decide (e = .undefined ∧ ¬ (twoNodes .exclusive true).Excludes s))
      ((twoNodes .exclusive true).runOver (twoNodes .exclusive true).watch
        (readFour ++ [⟨1, true, 1, 64, 0, 0⟩]) (.init (twoNodes .exclusive true).toPlatform)) = true := by
    decide +kernel
  obtain ⟨e, s, hrun, hes⟩ := exists_error_of_stopsWith hstops
  obtain ⟨rfl, hnot⟩ := of_decide_eq_true hes
  exact hnot (hall s hrun)

end Hierarchy

end Vpsim.Memory
