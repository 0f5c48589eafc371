import Vpsim.Memory.HomeAccess

/-!
# Requests of an L1 to its L2

Each request of an L1 leaves the hierarchy in a state that satisfies the invariant as soon as the
L1 has put its own line into the state it asked for. The L2 may replace one of its lines for the
request; the home is told as far as the node then holds less.
-/

namespace Vpsim.Memory

open Vpsim.Lib

namespace Hierarchy

variable {n : ℕ} {H : Hierarchy n} {live : Set (CacheRef n × LineRef × ℕ)}
  {v v' v'' : View (CacheRef n)} {s : State (CacheRef n)} {a b : ℕ} {i j : Fin n}
  {c : CoherenceCommand} {k k' : Holding} {E : Stop → State (CacheRef n) → Prop}
  {I : View (CacheRef n) → Prop} {home : Transaction → CacheM (CacheRef n) Unit}

/-- The requests of an L1, with the state of its line before and after. -/
inductive CpuRequests : CoherenceCommand → CoherenceState → CoherenceState → Prop
  | read : CpuRequests .getS .invalid .shared
  | own : CpuRequests .getM .invalid .modified
  | upgrade : CpuRequests .getM .shared .modified
  | dropShared : CpuRequests .putS .shared .invalid
  | dropModified : CpuRequests .putM .modified .invalid

/-- The directories are precise, and `I` holds of what the home has. -/
structure InvWith (H : Hierarchy n) (I : View (CacheRef n) → Prop) (v : View (CacheRef n)) : Prop where
  precise : ∀ a, H.Precise v a
  home : I v

/-- The program `home` answers the requests of the nodes, keeps `I`, and stops as `E` allows, which
includes all stops of the hierarchy. -/
structure Serves (H : Hierarchy n) (E : Stop → State (CacheRef n) → Prop) (I : View (CacheRef n) → Prop)
    (home : Transaction → CacheM (CacheRef n) Unit) : Prop where
  stops : ∀ e s, H.Stops e s → E e s
  node : ∀ {a j v v'}, Local a j v v' → I v → I v'
  write : ∀ {a v}, (∃ o, v.dir .home a = some (.ownedBy o)) → I v → I (v.emit (.cpuWrite a))
  serve : ∀ {live v s a j c k k'}, Requests c k k' → H.Sees live v s →
    (∀ q b, (.home, q, b) ∉ live) → H.IsLine a → I v → H.Asks c j a k v →
    wp (home ⟨c, a, (H.cfg (.l2 j)).geometry.cacheLineSize, H.l2Id j, ∅⟩)
      (fun _ s' => ∃ v', H.Sees live v' s' ∧ H.Answered j a k' v v' ∧ I v') E s

/-- The failure of an assertion that the hierarchy need not meet is accounted for. -/
theorem Serves.failure (hserve : H.Serves E I home) (h : FailureAllowed H.toPlatform H.Stops s) :
    FailureAllowed H.toPlatform E s :=
  fun hchecks => hserve.stops _ _ (h hchecks)

/-- The assertion that an id is not null holds, or its failure is accounted for. -/
theorem Serves.check_id (hserve : H.Serves E I home) (h : H.Sees live v s) {r : CacheRef n} :
    (H.cfg r).id ≠ nullIdx ∨ FailureAllowed H.toPlatform E s :=
  (Hierarchy.check_id h).imp_right hserve.failure

/-- A request of an L2 to the home is answered. -/
theorem send_home (hserve : H.Serves E I home) (hreq : Requests c k k')
    (h : H.Sees live v s) (hfree : ∀ q b, (.home, q, b) ∉ live) (ha : H.IsLine a)
    (hI : I v) (hask : H.Asks c j a k v) :
    wp (sendCoherenceTransaction H.toPlatform (H.l2PortsOver home j) (.l2 j) c a ∅)
      (fun _ s' => ∃ v', H.Sees live v' s' ∧ H.Answered j a k' v v' ∧ I v') E s := by
  have hlower : c.toHigher = false ∧ ¬ (c = .invalidate ∨ c = .readBack) := by
    cases hreq <;> simp [CoherenceCommand.toHigher]
  unfold sendCoherenceTransaction
  dsimp only
  rw [if_neg (by simp [hlower.1]), if_neg hlower.2]
  exact hserve.serve hreq h hfree ha hI hask

/-- Precision of a line only depends on what the nodes have of it and on its entry. -/
theorem Precise.frame (hprec : H.Precise v b) (hst : ∀ r, r ≠ .home → v'.st r b = v.st r b)
    (hdir : ∀ r, v'.dir r b = v.dir r b) : H.Precise v' b := by
  obtain ⟨hold, hnode, hhome⟩ := hprec
  refine ⟨hold, fun i => ?_, by rwa [hdir]⟩
  exact SameNode.node ⟨hst _ (by simp), hst _ (by simp), hdir _⟩ |>.2 (hnode i)

/-- A change of one node keeps the invariant of the home's own lines. -/
theorem Local.homeInv (hl : Local a j v v') (hinv : H.HomeInv v b) : H.HomeInv v' b := by
  have hst : v'.st .home b = v.st .home b := hl.st _ _ (by simp)
  have hdir : v'.dir .home b = v.dir .home b := hl.dir _ _ (by simp)
  obtain ⟨hpresent, hexclusive, hexcluded, hdirty, hstrict⟩ := hinv
  exact ⟨by rwa [hst, hdir], by rwa [hst, hdir], by rwa [hst, hdir, hl.trace],
    by rwa [hst, hdir, hl.trace], by rwa [hst, hdir, hl.trace]⟩

/-- A node that changes without the home, and still holds what it held, keeps the invariant. -/
theorem InvWith.of_local (hserve : H.Serves E I home) (hinv : H.InvWith I v) (hl : Local a j v v')
    {hold : Fin n → Holding} (hnode : ∀ i, H.Node v a i (hold i)) (hhome : H.HomeIs (v.dir .home a) hold)
    (hj : H.Node v' a j (hold j)) : H.InvWith I v' where
  precise b := by
    by_cases hb : b = a
    · subst hb
      refine ⟨hold, fun i => ?_, by rwa [hl.dir _ _ (by simp)]⟩
      by_cases hi : i = j
      · exact hi ▸ hj
      · exact (hl.sameNode hi).node.2 (hnode i)
    · exact (hinv.precise b).frame (fun r _ => hl.st r b fun h => absurd h hb)
        fun r => hl.dir r b fun h => absurd h hb
  home := hserve.node hl hinv.home

/-- A node that changes as the home has agreed keeps the invariant. -/
theorem InvWith.of_answered (hserve : H.Serves E I home) (hprec : ∀ b, b ≠ a → H.Precise v b)
    (hans : H.Answered j a k v v') (hI : I v') (hl : Local a j v' v'') (hj : H.Node v'' a j k) :
    H.InvWith I v'' where
  precise b := by
    by_cases hb : b = a
    · subst hb
      obtain ⟨hold, hhome, hk, hothers⟩ := hans.hold
      refine ⟨hold, fun i => ?_, by rwa [hl.dir _ _ (by simp)]⟩
      by_cases hi : i = j
      · rw [hi, hk]
        exact hj
      · exact (hl.sameNode hi).node.2 (hothers i hi)
    · refine (hprec b hb).frame (fun r hr => ?_) fun r => ?_
      · rw [hl.st r b fun h => absurd h hb, hans.st r b hr hb]
      · rw [hl.dir r b fun h => absurd h hb, hans.dir r b hb]
  home := hserve.node hl hI

/-- A node that holds `k` may ask the home for the line as one that holds `k`. -/
theorem asks_of_nodes {hold : Fin n → Holding} (hnode : ∀ i, H.Node v a i (hold i))
    (hhome : H.HomeIs (v.dir .home a) hold) (hk : hold j = k) : H.Asks c j a k v :=
  ⟨hold, hhome, hk, fun i _ => hnode i, fun _ => hnode j⟩

/-- A node whose L2 has the line holds it. -/
theorem Node.ne_none (hnode : H.Node v a i k) (hst : v.st (.l2 i) a ≠ .invalid) : k ≠ .none := by
  rintro rfl
  exact hst hnode.1

/-- The victim of a miss leaves the L2, and the home is told what its node gives up. -/
theorem wp_evictVictim (hserve : H.Serves E I home) {w : ℕ} {p : LineRef} (hp : (.l2 j, p, w) ∈ live) (h : H.Sees live v s)
    (hfree : ∀ q b, (.home, q, b) ∉ live) (hw : H.IsLine w) (hinv : H.InvWith I v)
    (hvalid : v.st (.l2 j) w ≠ .invalid) :
    wp (l2WriteBack H.toPlatform (H.l2PortsOver home j) (.l2 j) false p)
      (fun _ s' => ∃ v', H.Sees live v' s' ∧ H.InvWith I v' ∧ v'.st (.l2 j) w = .invalid ∧
        ∀ r b, r ≠ .home → (b = w → r = .l1 j) → v'.st r b = v.st r b) E s := by
  obtain ⟨hold, hnode, hhome⟩ := hinv.precise w
  have hne := (hnode j).ne_none hvalid
  obtain ⟨e, he, howned, hshared, hinvalid, hkm, hks⟩ := (hnode j).entry hne
  have hhold : (v.st (.l2 j) w = .modified → hold j = .modified) ∧
      (v.st (.l2 j) w = .shared → e.state = .invalid → hold j = .shared) := by
    cases hh : hold j with
    | none => exact absurd hh hne
    | shared => exact ⟨fun hl => absurd hl (hks hh).1, fun _ _ => rfl⟩
    | modified => exact ⟨fun _ => rfl, fun hl hes => by simp [hl, hes] at hkm; exact absurd hh hkm⟩
  -- The request to the home, if any, and then the line itself.
  have hsend {c k k'} (hreq : Requests c k k') (hk : hold j = k)
      (hnew : ∀ v', SameNode w j v v' → H.Node (v'.setSt (.l2 j) w .invalid) w j k') :
      wp (do
        sendCoherenceTransaction H.toPlatform (H.l2PortsOver home j) (.l2 j) c w ∅
        setState (.l2 j) p .invalid)
      (fun _ s' => ∃ v', H.Sees live v' s' ∧ H.InvWith I v' ∧ v'.st (.l2 j) w = .invalid ∧
        ∀ r b, r ≠ .home → (b = w → r = .l1 j) → v'.st r b = v.st r b) E s := by
    refine .step (.mono (send_home hserve hreq h hfree hw hinv.home (asks_of_nodes hnode hhome hk)) ?_)
    rintro - s₁ ⟨v₁, h₁, hans, hI⟩
    refine wp_setState h₁ hp hw fun s₂ h₂ => ⟨_, h₂, ?_, View.setSt_at, fun r b hr hb => ?_⟩
    · exact .of_answered hserve (fun b _ => hinv.precise b) hans hI (Local.refl.setSt (.inr rfl)) (hnew v₁ hans.same)
    · rw [View.setSt_st, if_neg fun ⟨hr', hb'⟩ => by simp [hb hb'] at hr']
      by_cases hbw : b = w
      · rw [hb hbw, hbw, hans.same.l1]
      · exact hans.st r b hr hbw
  have hdrop (hnew : H.Node (v.setSt (.l2 j) w .invalid) w j (hold j)) :
      wp (setState (.l2 j) p .invalid)
      (fun _ s' => ∃ v', H.Sees live v' s' ∧ H.InvWith I v' ∧ v'.st (.l2 j) w = .invalid ∧
        ∀ r b, r ≠ .home → (b = w → r = .l1 j) → v'.st r b = v.st r b) E s := by
    refine wp_setState h hp hw fun s₂ h₂ => ⟨_, h₂, ?_, View.setSt_at, fun r b _ hb => ?_⟩
    · exact .of_local hserve hinv (Local.refl.setSt (.inr rfl)) hnode hhome hnew
    · rw [View.setSt_st, if_neg fun ⟨hr', hb'⟩ => by simp [hb hb'] at hr']
  refine .step (wp_getLine h hp fun line haddr hst => ?_)
  rw [haddr]
  refine wp_runIf_pos ⟨rfl, by rwa [hst], H.writeBack _⟩ (.step (wp_checkFound h he ?_))
  refine .step (wp_dirAt h he ?_)
  cases hes : e.state with
  | invalid =>
    obtain ⟨rfl, hx, -⟩ := hinvalid hes
    have hnone (v') (hs : SameNode w j v v') : H.Node (v'.setSt (.l2 j) w .invalid) w j .none :=
      ⟨View.setSt_at, .inr (hs.dir.trans he), by simpa using hs.l1.trans hx⟩
    cases hl : v.st (.l2 j) w with
    | invalid => exact absurd hl hvalid
    | shared => exact .ite_pos (hst.trans hl) (hsend .dropShared (hhold.2 hl hes) hnone)
    | modified => exact .ite_neg (by simp [hst, hl]) (hsend .dropModified (hhold.1 hl) hnone)
  | shared =>
    obtain ⟨rfl, hx⟩ := hshared hes
    have hnew (v') (hs : SameNode w j v v') : H.Node (v'.setSt (.l2 j) w .invalid) w j .shared :=
      .inr ⟨by simp, hs.dir.trans he, by simpa using hs.l1.trans hx⟩
    by_cases hl : v.st (.l2 j) w = .modified
    · exact .step (wp_runIf_pos (hst.trans hl) ((wp_bind _ _).1 (hsend .demote (hhold.1 hl) hnew)))
    · have hk : hold j = .shared := by cases hh : hold j <;> simp_all
      exact .step (wp_runIf_neg (by rwa [hst]) (hdrop (hk ▸ hnew v .refl)))
  | modified =>
    obtain ⟨rfl, hx, hl⟩ := howned hes
    have hk : hold j = .modified := by cases hh : hold j <;> simp_all
    exact hdrop (hk ▸ .inr (.inr ⟨by simp, he, by simpa using hx⟩))

/-- On a miss the L2 makes room for the line. The L1 keeps its lines. -/
theorem wp_l2Allocate (hserve : H.Serves E I home) (h : H.Sees live v s) (hfree2 : ∀ q b, (.l2 j, q, b) ∉ live)
    (hfree : ∀ q b, (.home, q, b) ∉ live) (hinv : H.InvWith I v) {p : LineRef}
    (hway : (s.cache (.l2 j)).Way p) (hindex : p.index = (H.cfg (.l2 j)).geometry.index a)
    (habsent : v.st (.l2 j) a = .invalid) {Q : Unit → State (CacheRef n) → Prop}
    {k : CacheM (CacheRef n) Unit} {handle : ℕ}
    (hk : ∀ v' s', H.Sees (insert (.l2 j, p, a) live) v' s' → H.InvWith I v' →
      v'.st (.l2 j) a = .invalid → v'.st (.l1 j) = v.st (.l1 j) → wp k Q E s') :
    wp (do
      l2WriteBack H.toPlatform (H.l2PortsOver home j) (.l2 j) false p
      allocate H.toPlatform (.l2 j) false p a a handle
      k) Q E s := by
  have hallocate : false = false ∧ (H.cfg (.l2 j)).allocPolicy = .wAllocate :=
    ⟨rfl, H.writeAllocate _⟩
  rcases h.victim hway with hvacant | ⟨w, hw, hvalid, hwp⟩
  · refine .step (.step (wp_getLine_any (wp_runIf_neg (by simp [hvacant]) (.step ?_))))
    refine wp_runIf_pos hallocate (wp_setNewLine_of_invalid h hfree2 hway hindex habsent hvacant ?_)
    exact fun s₁ h₁ => hk v s₁ h₁ hinv habsent rfl
  · have hwa : a ≠ w := fun heq => hvalid (heq ▸ habsent)
    have hp := Set.mem_insert (CacheRef.l2 j, p, w) live
    refine .step (.mono (wp_evictVictim hserve hp hwp (by simpa using hfree) hw hinv hvalid) ?_)
    rintro - s₁ ⟨v₁, h₁, hinv₁, hst, hframe⟩
    have hst₁ := hframe (.l2 j) a (by simp) fun h => absurd h hwa
    refine .step (wp_runIf_pos hallocate ?_)
    refine wp_setNewLine_of_invalid (h₁.weaken (Set.subset_insert _ _)) hfree2 (h₁.owns _ _ _ hp).way
      hindex (hst₁.trans habsent) ((h₁.line_state hp).trans hst) fun s₂ h₂ => ?_
    exact hk v₁ s₂ h₂ hinv₁ (hst₁.trans habsent) (funext fun b => hframe _ b (by simp) fun _ => rfl)

/-- When its L1 does not have the line, a node holds it only in its L2. -/
theorem Node.of_l1_invalid (hnode : H.Node v a j k) (hx : v.st (.l1 j) a = .invalid) :
    (k = .none ∧ v.st (.l2 j) a = .invalid ∧
      (v.dir (.l2 j) a = none ∨ v.dir (.l2 j) a = some .uncached)) ∨
    (v.st (.l2 j) a ≠ .invalid ∧ v.dir (.l2 j) a = some .uncached ∧
      ((k = .shared ∧ v.st (.l2 j) a = .shared) ∨ (k = .modified ∧ v.st (.l2 j) a = .modified))) := by
  cases k with
  | none => exact .inl ⟨rfl, hnode.1, hnode.2.1⟩
  | shared =>
    rcases hnode with ⟨hl, hd, -⟩ | ⟨-, -, hx'⟩
    · exact .inr ⟨by simp [hl], hd, .inl ⟨rfl, hl⟩⟩
    · simp [hx] at hx'
  | modified =>
    rcases hnode with ⟨hl, hd, -⟩ | ⟨-, -, hx'⟩ | ⟨-, -, hx'⟩
    · exact .inr ⟨by simp [hl], hd, .inr ⟨rfl, hl⟩⟩
    · simp [hx] at hx'
    · simp [hx] at hx'

/-- When its L1 shares the line, the L2 has it entered and may own it. -/
theorem Node.of_l1_shared (hnode : H.Node v a j k) (hx : v.st (.l1 j) a = .shared) :
    v.dir (.l2 j) a = some (.sharedBy {H.l1Id j}) ∧
      ((k = .shared ∧ v.st (.l2 j) a ≠ .modified) ∨ (k = .modified ∧ v.st (.l2 j) a = .modified)) := by
  cases k with
  | none => simp [hnode.2.2] at hx
  | shared =>
    rcases hnode with ⟨-, -, hx'⟩ | ⟨hl, hd, -⟩
    · simp [hx] at hx'
    · exact ⟨hd, .inl ⟨rfl, hl⟩⟩
  | modified =>
    rcases hnode with ⟨-, -, hx'⟩ | ⟨hl, hd, -⟩ | ⟨-, -, hx'⟩
    · simp [hx] at hx'
    · exact ⟨hd, .inr ⟨rfl, hl⟩⟩
    · simp [hx] at hx'

/-- When its L1 has the line modified, the node owns it and the L2 has the owner entered. -/
theorem Node.of_l1_modified (hnode : H.Node v a j k) (hx : v.st (.l1 j) a = .modified) :
    k = .modified ∧ v.st (.l2 j) a ≠ .modified ∧ v.dir (.l2 j) a = some (.ownedBy (H.l1Id j)) := by
  cases k with
  | none => simp [hnode.2.2] at hx
  | shared => rcases hnode with ⟨-, -, hx'⟩ | ⟨-, -, hx'⟩ <;> simp [hx] at hx'
  | modified =>
    rcases hnode with ⟨-, -, hx'⟩ | ⟨-, -, hx'⟩ | ⟨hl, hd, -⟩
    · simp [hx] at hx'
    · simp [hx] at hx'
    · exact ⟨rfl, hl, hd⟩

/-- The L2 is done: the invariant holds once the L1, whose lines were `l1`, has the line in the
state `x`. -/
def Granted (H : Hierarchy n) (I : View (CacheRef n) → Prop)
    (live : Set (CacheRef n × LineRef × ℕ)) (j : Fin n) (a : ℕ)
    (x : CoherenceState) (l1 : ℕ → CoherenceState) (s : State (CacheRef n)) : Prop :=
  ∃ v, H.Sees live v s ∧ H.InvWith I (v.setSt (.l1 j) a x) ∧ ∀ b, b ≠ a → v.st (.l1 j) b = l1 b

/-- `GetS` of an L1 that does not have the line is granted, and the L1 may share it. -/
theorem l2GetS_spec (hserve : H.Serves E I home) (h : H.Sees live v s) {p : LineRef} (hp : (.l2 j, p, a) ∈ live)
    (hfree : ∀ q b, (.home, q, b) ∉ live) (ha : H.IsLine a) (hinv : H.InvWith I v)
    (hx : v.st (.l1 j) a = .invalid) {hit : Bool} (hhit : hit = true ↔ v.st (.l2 j) a ≠ .invalid) :
    wp (l2GetS H.toPlatform (H.l2PortsOver home j) (.l2 j) hit p a (H.l1Id j))
      (fun _ s' => H.Granted I live j a .shared (v.st (.l1 j)) s') E s := by
  obtain ⟨hold, hnode, hhome⟩ := hinv.precise a
  refine .step (wp_getLine h hp fun line haddr _ => ?_)
  rw [haddr]
  refine .step (wp_dirFind h ?_)
  have hend {v₁ s₁} (h₁ : H.Sees live v₁ s₁)
      (hinv₁ : H.InvWith I ((v₁.setDir (.l2 j) a (.sharedBy {H.l1Id j})).setSt (.l1 j) a .shared))
      (hl1 : ∀ b, b ≠ a → v₁.st (.l1 j) b = v.st (.l1 j) b) :
      wp (do
        dirSet (.l2 j) a (.sharedBy {H.l1Id j})
        checkDir H.toPlatform (.l2 j) a fun e => e.state = .shared
        checkDir H.toPlatform (.l2 j) a fun e => e.owner = nullIdx
        checkDir H.toPlatform (.l2 j) a fun e => e.sharers.card ≠ 0)
        (fun _ s' => H.Granted I live j a .shared (v.st (.l1 j)) s') E s₁ := by
    refine .step (wp_dirSet h₁ fun s₂ h₂ => wp_checkEntry h₂ View.setDir_at ?_ ?_ ?_
      ⟨_, h₂, hinv₁, hl1⟩)
    · rfl
    · rfl
    · simp [DirectoryEntry.sharedBy]
  rcases (hnode j).of_l1_invalid hx with ⟨hk, hl, hd⟩ | ⟨hl, hd, hk⟩
  · have hmiss : hit = false := by rw [← Bool.not_eq_true, hhit, not_not, hl]
    have hfetch : wp (do
        sendGetS H.toPlatform (H.l2PortsOver home j) (.l2 j) a
        setState (.l2 j) p .shared) (fun _ s₂ => ∃ v₂, H.Sees live v₂ s₂ ∧
          H.InvWith I ((v₂.setDir (.l2 j) a (.sharedBy {H.l1Id j})).setSt (.l1 j) a .shared) ∧
          ∀ b, b ≠ a → v₂.st (.l1 j) b = v.st (.l1 j) b) E s := by
      refine .step (.mono (send_home hserve .read h hfree ha hinv.home (asks_of_nodes hnode hhome hk)) ?_)
      rintro - s₁ ⟨v₁, h₁, hans, hI⟩
      refine wp_setState h₁ hp ha fun s₂ h₂ => ⟨_, h₂, .of_answered hserve (fun b _ => hinv.precise b)
        hans hI (((Local.refl.setSt (.inr rfl)).setDir (.inr rfl)).setSt (.inl rfl)) (.inr ?_), fun b hb => ?_⟩
      · simp
      · simpa using hans.st (.l1 j) b (by simp) hb
    rcases hd with hd | hd
    · rw [hd]
      refine .step (wp_check (.inl hmiss) (.step (.mono ((wp_bind _ _).1 hfetch) fun _ s₁ hset => ?_)))
      refine .step (.mono hset ?_)
      rintro - s₂ ⟨v₂, h₂, hinv₂, hl1⟩
      exact hend h₂ hinv₂ hl1
    · rw [hd]
      refine .step (wp_runIf_pos hmiss (.mono hfetch ?_))
      rintro - s₂ ⟨v₂, h₂, hinv₂, hl1⟩
      exact hend h₂ hinv₂ hl1
  · rw [hd]
    refine .step (wp_runIf_neg (by simpa using hhit.2 hl) (hend h (.of_local hserve hinv
      ((Local.refl.setDir (.inr rfl)).setSt (.inl rfl)) hnode hhome ?_) fun _ _ => rfl))
    rcases hk with ⟨hk, hl'⟩ | ⟨hk, hl'⟩
    · rw [hk]
      exact .inr (by simp [hl'])
    · rw [hk]
      exact .inr (.inl (by simp [hl']))

/-- `GetM` of an L1 that does not own the line is granted, and the L1 may own it. -/
theorem l2GetM_spec (hserve : H.Serves E I home) (h : H.Sees live v s) {p : LineRef} (hp : (.l2 j, p, a) ∈ live)
    (hfree : ∀ q b, (.home, q, b) ∉ live) (ha : H.IsLine a) (hinv : H.InvWith I v)
    (hx : v.st (.l1 j) a ≠ .modified) {hit : Bool} (hhit : hit = true ↔ v.st (.l2 j) a ≠ .invalid) :
    wp (l2GetM H.toPlatform (H.l2PortsOver home j) (.l2 j) hit p a (H.l1Id j))
      (fun _ s' => H.Granted I live j a .modified (v.st (.l1 j)) s') E s := by
  obtain ⟨hold, hnode, hhome⟩ := hinv.precise a
  refine .step (wp_getLine h hp fun line haddr hst => ?_)
  rw [haddr]
  refine .step (wp_dirFind h ?_)
  -- Whatever the node then does with the line is fine as long as it holds it modified.
  let Owning (v₁ : View (CacheRef n)) : Prop := (∀ b, b ≠ a → v₁.st (.l1 j) b = v.st (.l1 j) b) ∧
    ∀ v₂, Local a j v₁ v₂ → H.Node v₂ a j .modified → H.InvWith I v₂
  have hsend {k} (hk : hold j = k) (hreq : Requests .getM k .modified) :
      wp (sendGetM H.toPlatform (H.l2PortsOver home j) (.l2 j) a) (fun _ s₁ => ∃ v₁, H.Sees live v₁ s₁ ∧
        v₁.dir (.l2 j) a = v.dir (.l2 j) a ∧ Owning v₁) E s := by
    refine .mono (send_home hserve hreq h hfree ha hinv.home (asks_of_nodes hnode hhome hk)) ?_
    rintro - s₁ ⟨v₁, h₁, hans, hI⟩
    exact ⟨v₁, h₁, hans.same.dir, fun b hb => hans.st _ b (by simp) hb, fun v₂ hl hn =>
      .of_answered hserve (fun b _ => hinv.precise b) hans hI hl hn⟩
  have hown {k} (hk : hold j = k) (hreq : v.st (.l2 j) a ≠ .modified → Requests .getM k .modified)
      (hM : v.st (.l2 j) a = .modified → k = .modified) :
      wp (runIf (line.state ≠ .modified) (sendGetM H.toPlatform (H.l2PortsOver home j) (.l2 j) a))
        (fun _ s₁ => ∃ v₁, H.Sees live v₁ s₁ ∧ v₁.dir (.l2 j) a = v.dir (.l2 j) a ∧ Owning v₁)
        E s := by
    refine wp_runIf (fun hl => hsend hk (hreq (by rwa [hst] at hl))) fun hl => ?_
    rw [not_not, hst] at hl
    refine ⟨v, h, rfl, fun _ _ => rfl, fun v₂ hlocal hn => .of_local hserve hinv hlocal hnode hhome ?_⟩
    rwa [hk, hM hl]
  have hend {v₁ s₁} (h₁ : H.Sees live v₁ s₁) (hown₁ : Owning v₁) :
      wp (do
        dirSet (.l2 j) a (.ownedBy (H.l1Id j))
        setState (.l2 j) p .shared
        checkDir H.toPlatform (.l2 j) a fun e => e.state = .modified
        checkDir H.toPlatform (.l2 j) a fun e => e.owner = H.l1Id j
        checkDir H.toPlatform (.l2 j) a fun e => e.sharers.card = 0)
        (fun _ s' => H.Granted I live j a .modified (v.st (.l1 j)) s') E s₁ := by
    refine .step (wp_dirSet h₁ fun s₂ h₂ => .step (wp_setState h₂ hp ha fun s₃ h₃ => ?_))
    refine wp_checkEntry h₃ View.setDir_at ?_ ?_ ?_
      ⟨_, h₃, hown₁.2 _ ?_ (.inr (.inr ?_)), fun b hb => ?_⟩
    · rfl
    · rfl
    · rfl
    · exact ((Local.refl.setDir (.inr rfl)).setSt (.inr rfl)).setSt (.inl rfl)
    · simp
    · simpa using hown₁.1 b hb
  cases hx' : v.st (.l1 j) a with
  | modified => exact absurd hx' hx
  | invalid =>
    rcases (hnode j).of_l1_invalid hx' with ⟨hk, hl, hd⟩ | ⟨hl, hd, hk⟩
    · have hmiss : hit = false := by rw [← Bool.not_eq_true, hhit, not_not, hl]
      rcases hd with hd | hd
      · rw [hd]
        refine .step (wp_check (.inl hmiss) (.step (.mono (hsend hk .own) ?_)))
        exact fun _ s₁ ⟨v₁, h₁, _, hown₁⟩ => hend h₁ hown₁
      · rw [hd]
        refine .step (.mono (hown hk (fun _ => .own) (by simp [hl])) ?_)
        exact fun _ s₁ ⟨v₁, h₁, _, hown₁⟩ => hend h₁ hown₁
    · rw [hd]
      rcases hk with ⟨hk, hl'⟩ | ⟨hk, hl'⟩
      · refine .step (.mono (hown hk (fun _ => .upgrade) (by simp [hl'])) ?_)
        exact fun _ s₁ ⟨v₁, h₁, _, hown₁⟩ => hend h₁ hown₁
      · refine .step (.mono (hown hk (fun h => absurd hl' h) fun _ => rfl) ?_)
        exact fun _ s₁ ⟨v₁, h₁, _, hown₁⟩ => hend h₁ hown₁
  | shared =>
    obtain ⟨hd, hk⟩ := (hnode j).of_l1_shared hx'
    rw [hd]
    refine .step (.mono (Q := fun _ s₁ => ∃ v₁, H.Sees live v₁ s₁ ∧
      v₁.dir (.l2 j) a = v.dir (.l2 j) a ∧ Owning v₁) ?_ ?_)
    · rcases hk with ⟨hk, hl⟩ | ⟨hk, hl⟩
      · exact hown hk (fun _ => .upgrade) fun h => absurd h hl
      · exact hown hk (fun h => absurd hl h) fun _ => rfl
    rintro - s₁ ⟨v₁, h₁, hd₁, hl1, hinv₁⟩
    refine .step (wp_dirModify h₁ (hd₁.trans hd) fun s₂ h₂ => ?_)
    refine .step (wp_dirAt h₂ View.setDir_at (.step (wp_runIf_neg ?_ (hend h₂ ⟨hl1, fun v₂ hl hn => ?_⟩))))
    · simp [DirectoryEntry.eraseSharer, DirectoryEntry.sharedBy]
    · exact hinv₁ v₂ ((Local.refl.setDir (.inr rfl)).trans hl) hn

/-- `PutM` of the L1 that owns the line is granted, and the L1 has to drop it. -/
theorem l2PutM_spec (hserve : H.Serves E I home) (h : H.Sees live v s) {p : LineRef} (hp : (.l2 j, p, a) ∈ live)
    (ha : H.IsLine a) (hinv : H.InvWith I v) (hx : v.st (.l1 j) a = .modified) :
    wp (l2PutM H.toPlatform (.l2 j) p (H.l1Id j))
      (fun _ s' => H.Granted I live j a .invalid (v.st (.l1 j)) s') E s := by
  obtain ⟨hold, hnode, hhome⟩ := hinv.precise a
  obtain ⟨hk, hl, hd⟩ := (hnode j).of_l1_modified hx
  refine .step (wp_getLine h hp fun line haddr _ => ?_)
  rw [haddr]
  refine .step (wp_checkFound h hd (.step (wp_dirAt h hd (.step (wp_check (.inl rfl) (.step ?_))))))
  refine wp_setState h hp ha fun s₁ h₁ => wp_dirSet h₁ fun s₂ h₂ => ⟨_, h₂, ?_, by simp⟩
  refine .of_local hserve hinv (((Local.refl.setSt (.inr rfl)).setDir (.inr rfl)).setSt (.inl rfl)) hnode
    hhome ?_
  rw [hk]
  exact .inl (by simp)

/-- `PutS` of an L1 that shares the line is granted, and the L1 has to drop it. -/
theorem l2PutS_spec (hserve : H.Serves E I home) (h : H.Sees live v s) (hfree : ∀ q b, (.home, q, b) ∉ live) (ha : H.IsLine a)
    (hinv : H.InvWith I v) (hx : v.st (.l1 j) a = .shared) {hit : Bool}
    (hhit : hit = true ↔ v.st (.l2 j) a ≠ .invalid) :
    wp (l2PutS H.toPlatform (H.l2PortsOver home j) (.l2 j) hit a (H.l1Id j))
      (fun _ s' => H.Granted I live j a .invalid (v.st (.l1 j)) s') E s := by
  obtain ⟨hold, hnode, hhome⟩ := hinv.precise a
  obtain ⟨hd, hk⟩ := (hnode j).of_l1_shared hx
  refine .step (wp_checkFound h hd (.step (wp_checkDir h hd (.inl rfl) (.step ?_))))
  refine wp_dirModify h hd fun s₁ h₁ => .step (wp_dirAt h₁ View.setDir_at (.step ?_))
  have hend {v₂ s₂} (h₂ : H.Sees live v₂ s₂) (hd₂ : v₂.dir (.l2 j) a = some .uncached)
      (hinv₂ : H.InvWith I (v₂.setSt (.l1 j) a .invalid))
      (hl1 : ∀ b, b ≠ a → v₂.st (.l1 j) b = v.st (.l1 j) b) :
      wp (do
        checkDir H.toPlatform (.l2 j) a fun e => e.state ≠ .modified
        checkDir H.toPlatform (.l2 j) a fun e => e.owner = nullIdx)
        (fun _ s' => H.Granted I live j a .invalid (v.st (.l1 j)) s') E s₂ :=
    .step (wp_checkDir h₂ hd₂ (.inl (by simp [DirectoryEntry.uncached]))
      (wp_checkDir h₂ hd₂ (.inl rfl) ⟨v₂, h₂, hinv₂, hl1⟩))
  refine wp_runIf_pos (by simp [DirectoryEntry.eraseSharer, DirectoryEntry.sharedBy]) (.step ?_)
  refine wp_dirSet h₁ fun s₂ h₂ => ?_
  have hlocal := ((Local.refl (v := v) (a := a) (i := j)).setDir (r := .l2 j)
    (e := (DirectoryEntry.sharedBy {H.l1Id j}).eraseSharer (H.l1Id j)) (.inr rfl)).setDir (r := .l2 j)
    (e := .uncached) (.inr rfl)
  refine wp_runIf (fun hmiss => ?_) fun hmiss => hend h₂ View.setDir_at ?_ fun _ _ => rfl
  · have hl : v.st (.l2 j) a = .invalid := by rwa [← Bool.not_eq_true, hhit, not_not] at hmiss
    have hk' : hold j = .shared := by
      rcases hk with hk | hk
      · exact hk.1
      · simp [hl] at hk
    refine .mono (send_home hserve .dropShared h₂ hfree ha (hserve.node hlocal hinv.home)
      ⟨hold, by simpa using hhome, hk', fun i hi => ?_, by simp⟩) ?_
    · exact (hlocal.sameNode hi).node.2 (hnode i)
    rintro - s₃ ⟨v₃, h₃, hans, hI⟩
    have hd₃ : v₃.dir (.l2 j) a = some .uncached := hans.same.dir.trans View.setDir_at
    refine hend h₃ hd₃ (.of_answered hserve (fun b hb => ?_) hans hI (Local.refl.setSt (.inl rfl)) ?_)
      fun b hb => hans.st _ b (by simp) hb
    · exact (hinv.precise b).frame (fun r _ => hlocal.st r b fun h => absurd h hb)
        fun r => hlocal.dir r b fun h => absurd h hb
    · exact ⟨by simpa using hans.same.l2.trans hl, .inr hd₃, View.setSt_at⟩
  · have hl : v.st (.l2 j) a ≠ .invalid := hhit.1 (by simpa using hmiss)
    refine .of_local hserve hinv (hlocal.setSt (.inl rfl)) hnode hhome ?_
    rcases hk with ⟨hk, hl'⟩ | ⟨hk, hl'⟩
    · rw [hk]
      have hS : v.st (.l2 j) a = .shared := by cases hs : v.st (.l2 j) a <;> simp_all
      exact .inl (by simp [hS])
    · rw [hk]
      exact .inl (by simp [hl'])

/-- The last assertion of the L2, on the entry of the line, holds once the request is granted. -/
theorem wp_checkNormal (hserve : H.Serves E I home) {x : CoherenceState} {l1 : ℕ → CoherenceState} {p : LineRef} (hp : (.l2 j, p, a) ∈ live)
    (hs : H.Granted I live j a x l1 s) :
    wp (do
      let line ← getLine (.l2 j) p
      let found ← dirFind (.l2 j) line.address
      runIf (found.isSome = true) (checkDir H.toPlatform (.l2 j) a fun e => e.Normal))
      (fun _ s' => H.Granted I live j a x l1 s') E s := by
  obtain ⟨v, h, hinv, hl1⟩ := hs
  refine .step (wp_getLine h hp fun line haddr _ => ?_)
  rw [haddr]
  refine .step (wp_dirFind h (wp_runIf_checkDir h (fun hsome => ?_) ⟨v, h, hinv, hl1⟩))
  obtain ⟨e, he⟩ := Option.isSome_iff_exists.1 hsome
  refine ⟨e, he, ?_⟩
  obtain ⟨hold, hnode, -⟩ := hinv.precise a
  have hj := hnode j
  cases hk : hold j with
  | none =>
    rw [hk] at hj
    obtain rfl : e = .uncached := by simpa [he] using hj.2.1
    exact .inl (.inl ⟨rfl, rfl, rfl⟩)
  | shared =>
    rw [hk] at hj
    rcases hj with ⟨-, hd, -⟩ | ⟨-, hd, -⟩
    · obtain rfl : e = .uncached := by simpa [he] using hd
      exact .inl (.inl ⟨rfl, rfl, rfl⟩)
    · obtain rfl : e = .sharedBy {H.l1Id j} := by simpa [he] using hd
      exact .inl (.inr (.inl ⟨rfl, rfl, by simp [DirectoryEntry.sharedBy]⟩))
  | modified =>
    rw [hk] at hj
    rcases hj with ⟨-, hd, -⟩ | ⟨-, hd, -⟩ | ⟨-, hd, -⟩
    · obtain rfl : e = .uncached := by simpa [he] using hd
      exact .inl (.inl ⟨rfl, rfl, rfl⟩)
    · obtain rfl : e = .sharedBy {H.l1Id j} := by simpa [he] using hd
      exact .inl (.inr (.inl ⟨rfl, rfl, by simp [DirectoryEntry.sharedBy]⟩))
    · obtain rfl : e = .ownedBy (H.l1Id j) := by simpa [he] using hd
      exact (hserve.check_id (r := .l1 j) h).imp_left fun hid => .inr (.inr ⟨rfl, hid, rfl⟩)

/-- The commands of an L1 that allocate a line in the L2 are granted. -/
theorem l2Allocating_spec (hserve : H.Serves E I home) {x x' : CoherenceState} (hreq : CpuRequests c x x') (hc : c ≠ .putS)
    (h : H.Sees live v s) {p : LineRef} (hp : (.l2 j, p, a) ∈ live)
    (hfree : ∀ q b, (.home, q, b) ∉ live) (ha : H.IsLine a) (hinv : H.InvWith I v)
    (hx : v.st (.l1 j) a = x) {hit : Bool} (hhit : hit = true ↔ v.st (.l2 j) a ≠ .invalid) :
    wp (l2Allocating H.toPlatform (H.l2PortsOver home j) (.l2 j) c hit p a (H.l1Id j))
      (fun _ s' => H.Granted I live j a x' (v.st (.l1 j)) s') E s := by
  cases hreq with
  | dropShared => exact absurd rfl hc
  | read => exact .bind (l2GetS_spec hserve h hp hfree ha hinv hx hhit) fun _ _ => wp_checkNormal hserve hp
  | own =>
    exact .bind (l2GetM_spec hserve h hp hfree ha hinv (by simp [hx]) hhit) fun _ _ => wp_checkNormal hserve hp
  | upgrade =>
    exact .bind (l2GetM_spec hserve h hp hfree ha hinv (by simp [hx]) hhit) fun _ _ => wp_checkNormal hserve hp
  | dropModified => exact .bind (l2PutM_spec hserve h hp ha hinv hx) fun _ _ => wp_checkNormal hserve hp

/-- A request of an L1 to its L2 is granted. -/
theorem accessL2Cache_spec (hserve : H.Serves E I home) {x x' : CoherenceState} (hreq : CpuRequests c x x') (h : H.Sees live v s)
    (hfree2 : ∀ q b, (.l2 j, q, b) ∉ live) (hfree : ∀ q b, (.home, q, b) ∉ live) (ha : H.IsLine a)
    (hinv : H.InvWith I v) (hx : v.st (.l1 j) a = x) :
    wp (accessL2Cache H.toPlatform (H.l2PortsOver home j) (.l2 j) c (H.cfg (.l1 j)).geometry.cacheLineSize a
        (H.l1Id j) 0)
      (fun _ s' => H.Granted I live j a x' (v.st (.l1 j)) s') E s := by
  have hentry (hl : v.st (.l2 j) a = .modified) {E : Prop} :
      ∃ e, v.dir (.l2 j) a = some e ∧ (e.state ≠ .modified ∨ E) := by
    obtain ⟨hold, hnode, -⟩ := hinv.precise a
    obtain ⟨e, he, howned, -⟩ := (hnode j).entry ((hnode j).ne_none (by simp [hl]))
    exact ⟨e, he, .inl fun hes => (howned hes).2.2 hl⟩
  have hsize : (H.cfg (.l1 j)).geometry.cacheLineSize = (H.cfg (.l2 j)).geometry.cacheLineSize := by
    rw [H.lineSize_eq, H.lineSize_eq]
  refine .step (wp_lookup h ha rfl rfl (fun hf => hserve.stops _ _ ⟨_, hf⟩) (fun p s₁ hst h₁ => ?_)
    fun p s₁ hst h₁ hway hindex => ?_)
  · have hp := Set.mem_insert (CacheRef.l2 j, p, a) live
    have hfree₁ : ∀ q b, (.home, q, b) ∉ insert (CacheRef.l2 j, p, a) live := by simpa using hfree
    refine .step (wp_getLine h₁ hp fun line haddr hline => ?_)
    refine .step (wp_check (.inl (ha.offset_eq _)) (.step (wp_check (.inl hsize) (.step ?_))))
    refine wp_check (.inl (.inr ?_)) (.step (wp_check (.inl (.inr haddr.symm)) (.step ?_)))
    · rw [haddr, Nat.sub_self]
      exact ⟨le_rfl, lineSize_pos _⟩
    refine wp_runIf_checkDir h₁ (fun hm => hentry (hline.symm.trans hm.2)) (.step ?_)
    refine wp_notifyVictim h₁ fun s₂ _ h₂ => ?_
    have hhit : true = true ↔ v.st (.l2 j) a ≠ .invalid := by simpa using hst
    have hallocating (hc : c ≠ .putS) : wp (do
        l2WriteBack H.toPlatform (H.l2PortsOver home j) (.l2 j) true p
        allocate H.toPlatform (.l2 j) true p a a 0
        l2Allocating H.toPlatform (H.l2PortsOver home j) (.l2 j) c true p a (H.l1Id j))
        (fun _ s' => H.Granted I live j a x' (v.st (.l1 j)) s') E s₂ := by
      refine .step (.step (wp_getLine_any (wp_runIf_neg (by simp) (.step (wp_runIf_neg (by simp) ?_)))))
      refine .mono (l2Allocating_spec hserve hreq hc h₂ hp hfree₁ ha hinv hx hhit) ?_
      exact fun _ s' ⟨v', h', hinv', hl1⟩ => ⟨v', h'.weaken (Set.subset_insert _ _), hinv', hl1⟩
    cases hreq with
    | dropShared =>
      exact l2PutS_spec hserve (h₂.weaken (Set.subset_insert _ _)) hfree ha hinv hx hhit
    | read => exact hallocating (by simp)
    | own => exact hallocating (by simp)
    | upgrade => exact hallocating (by simp)
    | dropModified => exact hallocating (by simp)
  · refine .step (wp_getLine_any (.step (wp_check (.inl (ha.offset_eq _)) (.step ?_))))
    refine wp_check (.inl hsize) (.step (wp_check (.inl (.inl rfl)) (.step ?_)))
    refine wp_check (.inl (.inl rfl)) (.step (wp_runIf_neg (by simp) (.step ?_)))
    refine wp_notifyVictim h₁ fun s₂ hs₂ h₂ => ?_
    have hallocating (hc : c ≠ .putS) : wp (do
        l2WriteBack H.toPlatform (H.l2PortsOver home j) (.l2 j) false p
        allocate H.toPlatform (.l2 j) false p a a 0
        l2Allocating H.toPlatform (H.l2PortsOver home j) (.l2 j) c false p a (H.l1Id j))
        (fun _ s' => H.Granted I live j a x' (v.st (.l1 j)) s') E s₂ := by
      have hway₂ : (s₂.cache (.l2 j)).Way p := by rwa [hs₂]
      refine wp_l2Allocate hserve h₂ hfree2 hfree hinv hway₂ hindex hst fun v₁ s₃ h₃ hinv₁ hst₁ hx₁ => ?_
      refine .mono (l2Allocating_spec hserve hreq hc h₃ (Set.mem_insert _ _) (by simpa using hfree) ha hinv₁
        (by rw [hx₁, hx]) (by simp [hst₁])) ?_
      rw [hx₁]
      exact fun _ s' ⟨v', h', hinv', hl1⟩ => ⟨v', h'.weaken (Set.subset_insert _ _), hinv', hl1⟩
    cases hreq with
    | dropShared => exact l2PutS_spec hserve h₂ hfree ha hinv hx (by simp [hst])
    | read => exact hallocating (by simp)
    | own => exact hallocating (by simp)
    | upgrade => exact hallocating (by simp)
    | dropModified => exact hallocating (by simp)

end Hierarchy

end Vpsim.Memory
