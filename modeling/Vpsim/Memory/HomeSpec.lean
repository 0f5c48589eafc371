import Vpsim.Memory.ForwardSpec

/-!
# Requests to the home

Each request of a node changes what the nodes hold of one line as the protocol says, keeps the
home's directory precise for it, and keeps the invariant of the home's own lines. The home may
replace a line of its own for it; the directory entry of that line stays.
-/

namespace Vpsim.Memory

open Vpsim.Lib

/-! ## Traces -/

/-- The event is a transfer of the line `a` between the home and the memory. -/
def Event.Transfers (a : ℕ) (e : Event) : Prop := e = .forwardReadData a ∨ e = .forwardWriteData a

/-- Events other than CPU writes make no line dirty. -/
theorem Dirty.of_append {a : ℕ} {l t : List Event} (hl : ∀ e ∈ l, ∀ b, e ≠ .cpuWrite b)
    (h : Dirty a (l ++ t)) : Dirty a t := by
  induction l with
  | nil => exact h
  | cons e l ih =>
    refine ih (fun e' he' => hl e' (List.mem_cons_of_mem _ he')) ?_
    cases e with
    | cpuWrite b => exact absurd rfl (hl _ List.mem_cons_self b)
    | forwardWriteData b => exact h.2
    | homeRequest => exact h
    | forwardReadData => exact h
    | transfer => exact h
    | fetchMiss => exact h

namespace Hierarchy

variable {n : ℕ} {H : Hierarchy n} {live : Set (CacheRef n × LineRef × ℕ)} {v v' v'' : View (CacheRef n)}
  {s : State (CacheRef n)} {a b : ℕ} {i j : Fin n} {c : CoherenceCommand}

/-- An excuse stays one. -/
theorem Excused.append {l t : List Event} (h : H.Excused t) : H.Excused (l ++ t) := fun hs =>
  let ⟨e, he, hu⟩ := h hs
  ⟨e, List.mem_append_right l he, hu⟩

/-! ## Steps of the home on one line -/

/-- Only the line `a` changes, and the memory sees transfers of it. -/
structure AtLine (a : ℕ) (v v' : View (CacheRef n)) : Prop where
  st : ∀ r b, b ≠ a → v'.st r b = v.st r b
  dir : ∀ r b, b ≠ a → v'.dir r b = v.dir r b
  trace : ∃ l, v'.trace = l ++ v.trace ∧ ∀ e ∈ l, e.Transfers a

namespace AtLine

/-- Nothing changes. -/
theorem refl : AtLine a v v := ⟨fun _ _ _ => rfl, fun _ _ _ => rfl, [], rfl, by simp⟩

/-- A cache that changes its line changes nothing else. -/
theorem setSt (h : AtLine a v v') (r : CacheRef n) (x : CoherenceState) :
    AtLine a v (v'.setSt r a x) := by
  refine ⟨fun r' b hb => ?_, h.dir, h.trace⟩
  rw [View.setSt_st, if_neg fun hrb => hb hrb.2, h.st r' b hb]

/-- A cache that changes its directory entry of the line changes nothing else. -/
theorem setDir (h : AtLine a v v') (r : CacheRef n) (e : DirectoryEntry) :
    AtLine a v (v'.setDir r a e) := by
  refine ⟨h.st, fun r' b hb => ?_, h.trace⟩
  rw [View.setDir_dir, if_neg fun hrb => hb hrb.2, h.dir r' b hb]

/-- A transfer of the line changes nothing else. -/
theorem emit (h : AtLine a v v') {e : Event} (he : e.Transfers a) : AtLine a v (v'.emit e) := by
  obtain ⟨l, hl, hall⟩ := h.trace
  refine ⟨h.st, h.dir, e :: l, ?_, ?_⟩
  · rw [View.emit_trace, hl, List.cons_append]
  · intro e' he'
    rcases List.mem_cons.1 he' with rfl | he'
    · exact he
    · exact hall e' he'

/-- Commands to nodes about the line change nothing else. -/
theorem nodes (h : AtLine a v v') (hn : NodesOnly a v' v'') : AtLine a v v'' := by
  refine ⟨fun r b hb => ?_, fun r b hb => ?_, ?_⟩
  · rw [hn.st r b fun h => absurd h hb, h.st r b hb]
  · rw [hn.dir r b fun h => absurd h hb, h.dir r b hb]
  · rw [hn.trace]
    exact h.trace

/-- A step on the line makes it dirty only if it was. -/
theorem dirty_of (h : AtLine a v v') (hd : Dirty b v'.trace) : Dirty b v.trace := by
  obtain ⟨l, hl, hall⟩ := h.trace
  rw [hl] at hd
  refine hd.of_append fun e he b' => ?_
  rcases hall e he with rfl | rfl <;> simp

/-- A step on the line keeps excuses. -/
theorem excused (h : AtLine a v v') (hx : H.Excused v.trace) : H.Excused v'.trace := by
  obtain ⟨l, hl, -⟩ := h.trace
  rw [hl]
  exact hx.append

/-- The events before a step are still there after it. -/
theorem mem_trace (h : AtLine a v v') {e : Event} (he : e ∈ v.trace) : e ∈ v'.trace := by
  obtain ⟨l, hl, -⟩ := h.trace
  rw [hl]
  exact List.mem_append_right l he

/-- A step on the line is no request. -/
theorem hits (h : AtLine a v v') {e : Event} (he : e ∈ v'.trace) (hhit : e.SharedHit) : e ∈ v.trace := by
  obtain ⟨l, hl, hall⟩ := h.trace
  rw [hl] at he
  rcases List.mem_append.1 he with he | he
  · rcases hall e he with rfl | rfl
    · exact hhit.elim
    · exact hhit.elim
  · exact he

/-- A step on one line keeps the home invariant of the others. -/
theorem homeInv (h : AtLine a v v') (hab : b ≠ a) (hinv : H.HomeInv v b) : H.HomeInv v' b where
  present hst := by
    rw [h.st _ _ hab] at hst
    rw [h.dir _ _ hab]
    exact hinv.present hst
  exclusive hx hst := by
    rw [h.st _ _ hab] at hst
    rw [h.dir _ _ hab]
    exact hinv.exclusive hx hst
  excluded hx hm hst := by
    rw [h.st _ _ hab] at hst
    rw [h.dir _ _ hab]
    exact hinv.excluded hx (fun e he => hm e (h.mem_trace he)) hst
  dirty hd hx := by
    rw [h.st _ _ hab, h.dir _ _ hab]
    exact hinv.dirty (h.dirty_of hd) fun hex e he => hx hex e (h.mem_trace he)
  strict hx hst := by
    rw [h.st _ _ hab] at hst
    rw [h.dir _ _ hab]
    exact hinv.strict (mt h.excused hx) hst

end AtLine

/-- The home has served the request of the node `j`, which then holds `k`. -/
structure Served (H : Hierarchy n) (j : Fin n) (a : ℕ) (k : Holding) (v v' : View (CacheRef n)) :
    Prop where
  atLine : AtLine a v v'
  same : SameNode a j v v'
  inv : H.HomeInv v' a
  hold : ∃ hold, H.HomeIs (v'.dir .home a) hold ∧ hold j = k ∧ ∀ i ≠ j, H.Node v' a i (hold i)

/-- When no node owns the line, the home's own line has to hold what is dirty. -/
theorem homeInv_of_unowned {e : DirectoryEntry} (hD : v.dir .home a = some e)
    (hun : e.state ≠ .modified)
    (hdirty : Dirty a v.trace → (H.Exclusive → ∀ e ∈ v.trace, ¬ e.OwnedMiss a) →
      v.st .home a = .modified)
    (hx : H.Exclusive → v.st .home a = .modified → e = .uncached)
    (hclean : H.Exclusive → (∀ e ∈ v.trace, ¬ e.SharedHit) → v.st .home a ≠ .invalid → e = .uncached) :
    H.HomeInv v a where
  present _ := ⟨e, hD⟩
  exclusive hex hst := by rw [hD, hx hex hst]
  excluded hex hm hst := by rw [hD, hclean hex hm hst]
  dirty hd hm := .inr (hdirty hd hm)
  strict _ _ o ho := by
    rw [hD, Option.some.injEq] at ho
    rw [ho] at hun
    exact hun rfl

/-- When a node owns the line, the home's own line must not be modified. -/
theorem homeInv_of_owned {o : ℕ} (hD : v.dir .home a = some (.ownedBy o))
    (hx : H.Exclusive ∨ ¬ H.Excused v.trace → v.st .home a ≠ .modified)
    (hclean : H.Exclusive → (∀ e ∈ v.trace, ¬ e.SharedHit) → v.st .home a = .invalid) :
    H.HomeInv v a where
  present _ := ⟨_, hD⟩
  exclusive hex hst := absurd hst (hx (.inl hex))
  excluded hex hm hst := absurd (hclean hex hm) hst
  dirty _ _ := .inl ⟨o, hD⟩
  strict hs hst := absurd hst (hx (.inr hs))

/-- Changes of the home's own line and entry leave the nodes alone. -/
theorem SameNode.refl : SameNode a i v v := ⟨rfl, rfl, rfl⟩

theorem SameNode.trans (h : SameNode a i v v') (h' : SameNode a i v' v'') : SameNode a i v v'' :=
  ⟨h'.l1.trans h.l1, h'.l2.trans h.l2, h'.dir.trans h.dir⟩

theorem SameNode.setSt_home (h : SameNode a i v v') (x : CoherenceState) :
    SameNode a i v (v'.setSt .home a x) :=
  ⟨by simpa using h.l1, by simpa using h.l2, h.dir⟩

theorem SameNode.setDir_home (h : SameNode a i v v') (e : DirectoryEntry) :
    SameNode a i v (v'.setDir .home a e) :=
  ⟨h.l1, h.l2, by simpa using h.dir⟩

theorem SameNode.emit (h : SameNode a i v v') (e : Event) : SameNode a i v (v'.emit e) :=
  ⟨h.l1, h.l2, h.dir⟩

/-- The home enters the nodes `T` as sharers. -/
theorem served_shared {T : Finset (Fin n)} (hat : AtLine a v v') (hsame : SameNode a j v v')
    (hj : j ∈ T) (hnode : ∀ i ≠ j, H.Node v' a i (if i ∈ T then .shared else .none))
    (hdirty : Dirty a v'.trace → (H.Exclusive → ∀ e ∈ v'.trace, ¬ e.OwnedMiss a) →
      v'.st .home a = .modified)
    (hx : H.Exclusive → v'.st .home a = .invalid) :
    H.Served j a .shared v (v'.setDir .home a (.sharedBy (T.image H.l2Id))) where
  atLine := hat.setDir _ _
  same := hsame.setDir_home _
  inv := homeInv_of_unowned View.setDir_at (by simp [DirectoryEntry.sharedBy]) hdirty
    (fun hex hst => by cases (hx hex).symm.trans hst) fun hex _ hst => absurd (hx hex) hst
  hold := by
    refine ⟨fun i => if i ∈ T then .shared else .none, ?_, if_pos hj, fun i hi => ?_⟩
    · exact .shared T ⟨j, hj⟩ View.setDir_at fun _ => rfl
    · exact (SameNode.setDir_home .refl _).node.2 (hnode i hi)

/-- The home enters the node `j` as the owner. -/
theorem served_owned (hat : AtLine a v v') (hsame : SameNode a j v v')
    (hnode : ∀ i ≠ j, H.Node v' a i .none)
    (hx : H.Exclusive ∨ ¬ H.Excused v'.trace → v'.st .home a ≠ .modified)
    (hclean : H.Exclusive → (∀ e ∈ v'.trace, ¬ e.SharedHit) → v'.st .home a = .invalid) :
    H.Served j a .modified v (v'.setDir .home a (.ownedBy (H.l2Id j))) where
  atLine := hat.setDir _ _
  same := hsame.setDir_home _
  inv := homeInv_of_owned View.setDir_at hx hclean
  hold := by
    refine ⟨fun i => if i = j then .modified else .none, .owned j View.setDir_at fun _ => rfl, if_pos rfl,
      fun i hi => ?_⟩
    dsimp only
    rw [if_neg hi]
    exact (SameNode.setDir_home .refl _).node.2 (hnode i hi)

/-- The three assertions on a directory entry with which a request ends pass when the entry meets them.
-/
theorem wp_checkEntry {E : Stop → State (CacheRef n) → Prop} {r : CacheRef n} (h : H.Sees live v s) {e : DirectoryEntry}
    (he : v.dir r a = some e) {c₁ c₂ c₃ : DirectoryEntry → Prop} [DecidablePred c₁] [DecidablePred c₂]
    [DecidablePred c₃] (h₁ : c₁ e) (h₂ : c₂ e) (h₃ : c₃ e) {Q : Unit → State (CacheRef n) → Prop}
    (hQ : Q () s) :
    wp (do
      checkDir H.toPlatform r a c₁
      checkDir H.toPlatform r a c₂
      checkDir H.toPlatform r a c₃) Q E s :=
  .step (wp_checkDir h he (.inl h₁) (.step (wp_checkDir h he (.inl h₂) (wp_checkDir h he (.inl h₃) hQ))))

/-- The assertion that the home is not exclusive holds, or its failure is accounted for. -/
theorem check_notExclusive (h : H.Sees live v s) : ¬ H.Exclusive ∨ FailureAllowed H.toPlatform H.Stops s := by
  by_cases hx : H.Exclusive
  · exact .inr (stops_of_excused h fun hs => absurd hx hs.not_exclusive)
  · exact .inl hx

/-- The home works on its own line; what the nodes hold and the directories stay. -/
structure OwnLine (a : ℕ) (v v' : View (CacheRef n)) : Prop where
  atLine : AtLine a v v'
  same : ∀ i, SameNode a i v v'
  dir : v'.dir .home a = v.dir .home a

namespace OwnLine

/-- Nothing changes. -/
theorem refl : OwnLine a v v := ⟨.refl, fun _ => .refl, rfl⟩

/-- The home may change its own line. -/
theorem setSt (h : OwnLine a v v') (x : CoherenceState) : OwnLine a v (v'.setSt .home a x) :=
  ⟨h.atLine.setSt _ _, fun i => (h.same i).setSt_home x, h.dir⟩

/-- The home and the memory may exchange the line. -/
theorem emit (h : OwnLine a v v') {e : Event} (he : e.Transfers a) : OwnLine a v (v'.emit e) :=
  ⟨h.atLine.emit he, fun i => (h.same i).emit e, h.dir⟩

end OwnLine

/-- The home has dealt with its own line of an entry that no node owns. -/
structure Settled (H : Hierarchy n) (a : ℕ) (v v' : View (CacheRef n)) : Prop extends OwnLine a v v' where
  dirty : Dirty a v'.trace → (H.Exclusive → ∀ e ∈ v'.trace, ¬ e.OwnedMiss a) →
    v'.st .home a = .modified
  exclusive : H.Exclusive → v'.st .home a = .invalid

/-- A home that does not have a line modified has no dirty data of it unless a node owns it. -/
theorem OwnLine.clean (h : OwnLine a v v') (hinv : H.HomeInv v a) (hst : v.st .home a ≠ .modified)
    (hD : ∀ o, v.dir .home a ≠ some (.ownedBy o))
    (hm : H.Exclusive → ∀ e ∈ v'.trace, ¬ e.OwnedMiss a) : ¬ Dirty a v'.trace := by
  intro hd
  rcases hinv.dirty (h.atLine.dirty_of hd) fun hx e he => hm hx e (h.atLine.mem_trace he) with
    ⟨o, ho⟩ | h
  · exact hD o ho
  · exact hst h

/-- A home that missed the line has it clean afterwards. -/
theorem settled_of_miss (h : OwnLine a v v') (hinv : H.HomeInv v a) (hst : v.st .home a = .invalid)
    (hx : ¬ H.Exclusive) (hD : ∀ o, v.dir .home a ≠ some (.ownedBy o)) :
    H.Settled a v v' where
  toOwnLine := h
  dirty hd hm := absurd hd (h.clean hinv (by rw [hst]; simp) hD hm)
  exclusive hex := absurd hex hx

section Parts

variable {p : LineRef} {Q : Unit → State (CacheRef n) → Prop} {k : Unit → CacheM (CacheRef n) Unit}

/-- A home that misses reads the line from the memory. -/
theorem wp_readLine (h : H.Sees live v s) (ha : H.IsLine a) (hp : (.home, p, a) ∈ live)
    (hk : ∀ v' s', H.Sees live v' s' → OwnLine a v v' → v'.st .home a = .shared →
      wp (k ()) Q H.Stops s') :
    wp (do
      check H.toPlatform ¬ H.Exclusive
      H.homePorts.forwardReadData a
      let u ← setState .home p .shared
      k u) Q H.Stops s := by
  refine .step (wp_check (check_notExclusive h) (.step (wp_emit h fun s₁ h₁ => .step ?_)))
  refine wp_setState h₁ hp ha fun s₂ h₂ => hk _ s₂ h₂ ?_ View.setSt_at
  exact (OwnLine.refl.emit (.inl rfl)).setSt _

/-- A home that misses a line that nodes share makes them supply it. The nodes keep the line, and
the assertions do not foresee it. -/
theorem wp_supplyLine (h : H.Sees live v s) (ha : H.IsLine a) (hp : (.home, p, a) ∈ live)
    {T : Finset (Fin n)} (hT : T.Nonempty) {hold : Fin n → Holding}
    (hnode : ∀ i, H.Node v a i (hold i)) (hhold : ∀ i, hold i = if i ∈ T then .shared else .none)
    (hx : H.Excused v.trace)
    (hk : ∀ v' s', H.Sees live v' s' → OwnLine a v v' → v'.st .home a = .shared →
      wp (k ()) Q H.Stops s') :
    wp (do
      check H.toPlatform ¬ H.Exclusive
      sendFwdGetS H.toPlatform H.homePorts .home a (T.image H.l2Id)
      let u ← setState .home p .shared
      k u) Q H.Stops s := by
  refine .step (wp_check (check_notExclusive h) (.step ?_))
  refine .mono (send_toL2s hT .supply h ha hnode (fun i hi => by rw [hhold, if_pos hi])
    fun _ _ => hx) ?_
  rintro - s₁ ⟨v₁, h₁, honly, -, hsame⟩
  refine .step (wp_setState h₁ hp ha fun s₂ h₂ => hk _ s₂ h₂ ?_ View.setSt_at)
  refine OwnLine.setSt ⟨AtLine.refl.nodes honly, fun i => hsame i (.inr rfl), ?_⟩ _
  exact honly.dir _ _ fun _ => rfl

/-- An exclusive home writes a modified line to the memory before it gives it up. -/
theorem wp_homeCleanLine (h : H.Sees live v s) (ha : H.IsLine a) (hp : (.home, p, a) ∈ live)
    (hQ : ∀ v' s', H.Sees live v' s' → OwnLine a v v' → v'.st .home a = .invalid →
      (v.st .home a = .modified → ¬ Dirty a v'.trace) → Q () s') :
    wp (homeCleanLine H.homePorts .home p) Q H.Stops s := by
  refine .step (wp_getLine h hp fun line haddr hst => .step (wp_runIf (fun hm => ?_) fun hm => ?_))
  · rw [haddr]
    refine wp_emit h fun s₁ h₁ => wp_setState h₁ hp ha fun s₂ h₂ => ?_
    refine hQ _ s₂ h₂ ((OwnLine.refl.emit (.inr rfl)).setSt _) View.setSt_at fun _ hd => ?_
    exact hd.1 rfl
  · refine wp_setState h hp ha fun s₂ h₂ => ?_
    refine hQ _ s₂ h₂ (OwnLine.refl.setSt _) View.setSt_at fun hm' => ?_
    exact absurd (hst.trans hm') hm

/-- On a hit, an exclusive home gives the line up and another home keeps it. -/
theorem wp_settleHit (h : H.Sees live v s) (ha : H.IsLine a) (hp : (.home, p, a) ∈ live)
    (hinv : H.HomeInv v a) (hD : ∀ o, v.dir .home a ≠ some (.ownedBy o))
    (hQ : ∀ v' s', H.Sees live v' s' → H.Settled a v v' → Q () s') :
    wp (runIf H.Exclusive (homeCleanLine H.homePorts .home p)) Q H.Stops s := by
  refine wp_runIf (fun hx => ?_) fun hx => ?_
  · refine wp_homeCleanLine h ha hp fun v' s' h' hown hst hd => hQ v' s' h' ⟨hown, ?_, ?_⟩
    · intro hdirty hm
      by_cases hM : v.st .home a = .modified
      · exact absurd hdirty (hd hM)
      · exact absurd hdirty (hown.clean hinv hM hD hm)
    · exact fun _ => hst
  · refine hQ v s h ⟨.refl, fun hd hm => ?_, fun hx' => absurd hx' hx⟩
    exact (hinv.dirty hd hm).resolve_left fun ⟨o, ho⟩ => hD o ho

/-- Before a node owns the line, an exclusive home no longer has it modified. -/
theorem wp_homeCleanModified (h : H.Sees live v s) (ha : H.IsLine a) (hp : (.home, p, a) ∈ live)
    (hQ : ∀ v' s', H.Sees live v' s' → OwnLine a v v' →
      (H.Exclusive → v'.st .home a ≠ .modified) →
      (v.st .home a ≠ .modified → v'.st .home a ≠ .modified) →
      (H.Exclusive → v.st .home a ≠ .shared → v'.st .home a = .invalid) → Q () s') :
    wp (homeCleanModified H.toPlatform H.homePorts .home p) Q H.Stops s := by
  refine .step (wp_getLine h hp fun line haddr hst => wp_runIf (fun hm => ?_) fun hm => ?_)
  · rw [haddr]
    refine .step (wp_emit h fun s₁ h₁ => wp_setState h₁ hp ha fun s₂ h₂ => ?_)
    refine hQ _ s₂ h₂ ((OwnLine.refl.emit (.inr rfl)).setSt _) (fun _ => ?_) (fun _ => ?_)
      fun _ _ => View.setSt_at
    · simp
    · simp
  · refine hQ v s h .refl (fun hx hm' => hm ⟨hx, hst.trans hm'⟩) (fun hne => hne) fun hx hne => ?_
    cases hl : v.st .home a with
    | invalid => rfl
    | shared => exact absurd hl hne
    | modified => exact absurd ⟨hx, hst.trans hl⟩ hm

end Parts

/-- A node that reads a line that nobody holds becomes its only sharer. -/
theorem Settled.sole (h : H.Settled a v v') (hnode : ∀ i, H.Node v a i .none) :
    H.Served j a .shared v (v'.setDir .home a (.sharedBy (({j} : Finset _).image H.l2Id))) := by
  refine served_shared h.atLine (h.same j) (Finset.mem_singleton_self j) (fun i hi => ?_)
    h.dirty h.exclusive
  rw [if_neg (by simpa using hi), (h.same i).node]
  exact hnode i

/-- A node that reads a line that others share joins them. -/
theorem Settled.join (h : H.Settled a v v') {T : Finset (Fin n)}
    (hnode : ∀ i, H.Node v a i (if i ∈ T then .shared else .none)) :
    H.Served j a .shared v (v'.setDir .home a (.sharedBy ((insert j T).image H.l2Id))) := by
  refine served_shared h.atLine (h.same j) (Finset.mem_insert_self j T) (fun i hi => ?_)
    h.dirty h.exclusive
  have := hnode i
  rw [← (h.same i).node] at this
  simpa [hi] using this

/-- A line without an entry is not in the home. -/
theorem HomeInv.st_of_absent (hinv : H.HomeInv v a) (hD : v.dir .home a = none) :
    v.st .home a = .invalid := by
  by_contra hne
  obtain ⟨e, he⟩ := hinv.present hne
  rw [hD] at he
  cases he

/-- A node that joins the sharers is one of the nodes entered. -/
theorem insertSharer_image (T : Finset (Fin n)) (j : Fin n) :
    (DirectoryEntry.sharedBy (T.image H.l2Id)).insertSharer (H.l2Id j) =
      .sharedBy ((insert j T).image H.l2Id) := by
  rw [Finset.image_insert]
  rfl

/-- The request for a line that nodes share and the home does not have is unforeseen. -/
theorem excused_of_sharedMiss {ids : Finset ℕ} {id : ℕ} (hc : c = .getS ∨ c = .getM)
    (hst : v.st .home a = .invalid) (hD : v.dir .home a = some (.sharedBy ids))
    (hev : .homeRequest c id a (v.st .home a) (v.dir .home a) ∈ v.trace) : H.Excused v.trace := by
  intro _
  refine ⟨_, hev, ?_⟩
  rw [hst, hD]
  rcases hc with rfl | rfl <;> rfl

/-- The assertions after a read request hold once the sharers are entered. -/
theorem wp_checkShared (h : H.Sees live v' s) {T : Finset (Fin n)} (hT : T.Nonempty)
    (hD : v'.dir .home a = some (.sharedBy (T.image H.l2Id))) (hserved : H.Served j a .shared v v') :
    wp (do
      checkDir H.toPlatform .home a fun e => e.state = .shared
      checkDir H.toPlatform .home a fun e => e.owner = nullIdx
      checkDir H.toPlatform .home a fun e => e.sharers.card ≠ 0)
      (fun _ s' => ∃ v', H.Sees live v' s' ∧ H.Served j a .shared v v') H.Stops s := by
  refine wp_checkEntry h hD ?_ ?_ ?_ ?_
  · rfl
  · rfl
  · exact Finset.card_ne_zero.2 (hT.image _)
  · exact ⟨_, h, hserved⟩

/-- The owner of a line shares it with the node that reads it; the owner itself may be the one. -/
theorem wp_shareOwner (h : H.Sees live v s) (ha : H.IsLine a) {o : Fin n}
    (hnode : ∀ i, H.Node v a i (if i = o then .modified else .none))
    {Q : Unit → State (CacheRef n) → Prop}
    (hQ : ∀ v' s', H.Sees live v' s' → NodesOnly a v v' → SameNode a j v v' →
      (∀ i ≠ j, H.Node v' a i (if i ∈ ({j, o} : Finset (Fin n)) then .shared else .none)) → Q () s') :
    wp (runIf (H.l2Id o ≠ H.l2Id j)
      (sendFwdGetS H.toPlatform H.homePorts .home a {H.l2Id o})) Q H.Stops s := by
  refine wp_runIf (fun hne => ?_) fun heq => ?_
  · have hoj : j ≠ o := fun h => hne (by rw [h])
    rw [← Finset.image_singleton]
    refine .mono (send_toL2s (Finset.singleton_nonempty o) .share h ha hnode
      (fun i hi => if_pos (Finset.mem_singleton.1 hi)) (by simp)) ?_
    rintro - s₁ ⟨v₁, h₁, honly, hnode₁, hsame⟩
    refine hQ v₁ s₁ h₁ honly (hsame j (.inl (by simpa using hoj))) fun i hi => ?_
    have := hnode₁ i
    by_cases hio : i = o
    · simpa [hio] using this
    · simpa [hi, hio] using this
  · have hoj : o = j := H.l2Id_injective (not_not.1 heq)
    refine hQ v s h ⟨rfl, fun _ _ _ => rfl, fun _ _ _ => rfl⟩ .refl fun i hi => ?_
    have := hnode i
    rw [hoj] at this ⊢
    simpa [hi] using this

/-- `GetS` for a line that the home has or allocates is served, and the node shares the line. -/
theorem homeGetS_spec (h : H.Sees live v s) (ha : H.IsLine a) {p : LineRef}
    (hp : (.home, p, a) ∈ live) {hit : Bool} (hhit : hit = true ↔ v.st .home a ≠ .invalid)
    (hmissx : hit = false → ¬ H.Exclusive) (hinv : H.HomeInv v a) {hold : Fin n → Holding}
    (hnode : ∀ i, H.Node v a i (hold i))
    (hhome : H.HomeIs (v.dir .home a) hold)
    (hev : .homeRequest .getS (H.l2Id j) a (v.st .home a) (v.dir .home a) ∈ v.trace) :
    wp (homeGetS H.toPlatform H.homePorts .home hit p (H.l2Id j))
      (fun _ s' => ∃ v', H.Sees live v' s' ∧ H.Served j a .shared v v') H.Stops s := by
  refine .step (wp_getLine h hp fun line haddr _ => ?_)
  rw [haddr]
  refine .step (wp_dirFind h ?_)
  have hmiss : hit = false → v.st .home a = .invalid := fun hf => by
    rwa [← Bool.not_eq_true, hhit, not_not] at hf
  cases hhome with
  | uncached hD hhold =>
    have hnotOwned (o : ℕ) : v.dir .home a ≠ some (.ownedBy o) := by
      rcases hD with hD | hD <;> simp [hD, DirectoryEntry.uncached, DirectoryEntry.ownedBy]
    simp only [hhold] at hnode
    have hend {v₁ s₁} (h₁ : H.Sees live v₁ s₁) (hset : H.Settled a v v₁) :
        wp (do
          dirSet .home a (.sharedBy (({j} : Finset _).image H.l2Id))
          checkDir H.toPlatform .home a fun e => e.state = .shared
          checkDir H.toPlatform .home a fun e => e.owner = nullIdx
          checkDir H.toPlatform .home a fun e => e.sharers.card ≠ 0)
          (fun _ s' => ∃ v', H.Sees live v' s' ∧ H.Served j a .shared v v') H.Stops s₁ :=
      .step (wp_dirSet h₁ fun s₂ h₂ => wp_checkShared h₂ (Finset.singleton_nonempty j) View.setDir_at
        (hset.sole hnode))
    rcases hD with hD | hD
    · have hst := hinv.st_of_absent hD
      have hf : hit = false := by rw [← Bool.not_eq_true, hhit, not_not, hst]
      rw [hD]
      refine .step (wp_check (.inl hf) (wp_readLine h ha hp fun v₁ s₁ h₁ hown hst₁ => ?_))
      exact hend h₁ (settled_of_miss hown hinv hst (hmissx hf) hnotOwned)
    · rw [hD]
      refine .step (wp_check (.inl rfl) (.step (wp_check (.inl rfl) ?_)))
      cases hit with
      | false =>
        refine wp_readLine h ha hp fun v₁ s₁ h₁ hown hst₁ => ?_
        exact hend h₁ (settled_of_miss hown hinv (hmiss rfl) (hmissx rfl) hnotOwned)
      | true => exact .step (wp_settleHit h ha hp hinv hnotOwned fun v₁ s₁ h₁ hset => hend h₁ hset)
  | shared T hT hD hhold =>
    have hnotOwned (o : ℕ) : v.dir .home a ≠ some (.ownedBy o) := by
      simp [hD, DirectoryEntry.sharedBy, DirectoryEntry.ownedBy]
    have hshared : ∀ i, H.Node v a i (if i ∈ T then .shared else .none) := fun i => hhold i ▸ hnode i
    have hend {v₁ s₁} (h₁ : H.Sees live v₁ s₁) (hset : H.Settled a v v₁) :
        wp (do
          dirModify .home a fun e => e.insertSharer (H.l2Id j)
          checkDir H.toPlatform .home a fun e => e.state = .shared
          checkDir H.toPlatform .home a fun e => e.owner = nullIdx
          checkDir H.toPlatform .home a fun e => e.sharers.card ≠ 0)
          (fun _ s' => ∃ v', H.Sees live v' s' ∧ H.Served j a .shared v v') H.Stops s₁ := by
      refine .step (wp_dirModify h₁ (hset.dir.trans hD) fun s₂ h₂ => ?_)
      rw [insertSharer_image] at h₂
      exact wp_checkShared h₂ (Finset.insert_nonempty j T) View.setDir_at (hset.join hshared)
    rw [hD]
    refine .step (wp_check (.inl rfl) (.step (wp_check (.inl (Finset.card_pos.2 (hT.image _))) ?_)))
    cases hit with
    | false =>
      have hx := excused_of_sharedMiss (H := H) (.inl rfl) (hmiss rfl) hD hev
      refine wp_supplyLine h ha hp hT hnode hhold hx fun v₁ s₁ h₁ hown hst₁ => ?_
      exact hend h₁ (settled_of_miss hown hinv (hmiss rfl) (hmissx rfl) hnotOwned)
    | true => exact .step (wp_settleHit h ha hp hinv hnotOwned fun v₁ s₁ h₁ hset => hend h₁ hset)
  | owned o hD hhold =>
    have howned : ∀ i, H.Node v a i (if i = o then .modified else .none) := fun i => hhold i ▸ hnode i
    have hids : ({H.l2Id j, H.l2Id o} : Finset ℕ) = ({j, o} : Finset (Fin n)).image H.l2Id := by
      rw [Finset.image_insert, Finset.image_singleton]
    have hne : ({j, o} : Finset (Fin n)).Nonempty := Finset.insert_nonempty _ _
    rw [hD]
    refine .step (wp_check (.inl rfl) (.step (wp_check (check_id (r := .l2 o) h) (.step ?_))))
    refine wp_shareOwner (j := j) h ha howned fun v₁ s₁ h₁ honly hsame hnode₁ => ?_
    have hD₁ : v₁.dir .home a = some (.ownedBy (H.l2Id o)) := (honly.dir _ _ fun _ => rfl).trans hD
    have hat : AtLine a v v₁ := AtLine.refl.nodes honly
    refine .step (wp_dirAt h₁ hD₁ (.step (wp_dirSet h₁ fun s₂ h₂ => ?_)))
    change H.Sees live (v₁.setDir .home a (.sharedBy {H.l2Id j, H.l2Id o})) s₂ at h₂
    rw [hids] at h₂
    by_cases hx : H.Exclusive
    · refine .ite_pos hx (.step (wp_check (.inr ?_) ?_))
      · exact stops_of_excused h₂ fun hs => absurd hx hs.not_exclusive
      refine .step (wp_emit h₂ fun s₃ h₃ => .step (wp_setState h₃ hp ha fun s₄ h₄ => ?_))
      refine wp_checkShared h₄ hne View.setDir_at (served_shared ((hat.emit (.inr rfl)).setSt _ _)
        ((hsame.emit _).setSt_home _) (Finset.mem_insert_self j _) (fun i hi => ?_) ?_ ?_)
      · exact ((SameNode.refl.emit _).setSt_home _).node.2 (hnode₁ i hi)
      · exact fun hd _ => absurd rfl hd.1
      · simp
    · refine .ite_neg hx (.step (wp_setState h₂ hp ha fun s₃ h₃ => ?_))
      refine wp_checkShared h₃ hne View.setDir_at (served_shared (hat.setSt _ _) (hsame.setSt_home _)
        (Finset.mem_insert_self j _) (fun i hi => ?_) ?_ ?_)
      · exact (SameNode.refl.setSt_home _).node.2 (hnode₁ i hi)
      · exact fun _ _ => View.setSt_at
      · exact fun h => absurd h hx

/-- `GetS` that an exclusive home answers without allocating is served, and the node shares the line. -/
theorem homeMissGetS_spec (h : H.Sees live v s) (ha : H.IsLine a) (hx : H.Exclusive)
    (hst : v.st .home a = .invalid) (hinv : H.HomeInv v a) {hold : Fin n → Holding}
    (hnode : ∀ i, H.Node v a i (hold i)) (hhome : H.HomeIs (v.dir .home a) hold)
    (hev : .homeRequest .getS (H.l2Id j) a (v.st .home a) (v.dir .home a) ∈ v.trace) :
    wp (homeMissGetS H.toPlatform H.homePorts .home a (H.l2Id j))
      (fun _ s' => ∃ v', H.Sees live v' s' ∧ H.Served j a .shared v v') H.Stops s := by
  refine .step (wp_dirFind h ?_)
  have hsettled {v₁} (hown : OwnLine a v v₁) (hst₁ : v₁.st .home a = .invalid)
      (hD : ∀ o, v.dir .home a ≠ some (.ownedBy o)) : H.Settled a v v₁ :=
    ⟨hown, fun hd hm => absurd hd (hown.clean hinv (by simp [hst]) hD hm), fun _ => hst₁⟩
  cases hhome with
  | uncached hD hhold =>
    have hnotOwned (o : ℕ) : v.dir .home a ≠ some (.ownedBy o) := by
      rcases hD with hD | hD <;> simp [hD, DirectoryEntry.uncached, DirectoryEntry.ownedBy]
    simp only [hhold] at hnode
    have hread : wp (do
        H.homePorts.forwardReadData a
        dirSet .home a (.sharedBy {H.l2Id j})
        checkDir H.toPlatform .home a fun e => e.state = .shared
        checkDir H.toPlatform .home a fun e => e.owner = nullIdx
        checkDir H.toPlatform .home a fun e => e.sharers.card ≠ 0)
        (fun _ s' => ∃ v', H.Sees live v' s' ∧ H.Served j a .shared v v') H.Stops s := by
      refine .step (wp_emit h fun s₁ h₁ => .step (wp_dirSet h₁ fun s₂ h₂ => ?_))
      exact wp_checkShared h₂ (Finset.singleton_nonempty j) View.setDir_at
        ((hsettled (OwnLine.refl.emit (.inl rfl)) hst hnotOwned).sole hnode)
    rcases hD with hD | hD
    · rw [hD]
      exact hread
    · rw [hD]
      exact hread
  | shared T hT hD hhold =>
    have hnotOwned (o : ℕ) : v.dir .home a ≠ some (.ownedBy o) := by
      simp [hD, DirectoryEntry.sharedBy, DirectoryEntry.ownedBy]
    have hshared : ∀ i, H.Node v a i (if i ∈ T then .shared else .none) := fun i => hhold i ▸ hnode i
    rw [hD]
    refine .step (.mono (send_toL2s hT .supply h ha hshared (fun i hi => if_pos hi)
      fun _ _ hs => absurd hx hs.not_exclusive) ?_)
    rintro - s₁ ⟨v₁, h₁, honly, -, hsame⟩
    have hown : OwnLine a v v₁ :=
      ⟨AtLine.refl.nodes honly, fun i => hsame i (.inr rfl), honly.dir _ _ fun _ => rfl⟩
    refine .step (wp_dirModify h₁ (hown.dir.trans hD) fun s₂ h₂ => ?_)
    rw [insertSharer_image] at h₂
    have hst₁ : v₁.st .home a = .invalid := (honly.st _ _ fun _ => rfl).trans hst
    exact wp_checkShared h₂ (Finset.insert_nonempty j T) View.setDir_at
      ((hsettled hown hst₁ hnotOwned).join hshared)
  | owned o hD hhold =>
    have howned : ∀ i, H.Node v a i (if i = o then .modified else .none) := fun i => hhold i ▸ hnode i
    have hids : ({H.l2Id j, H.l2Id o} : Finset ℕ) = ({j, o} : Finset (Fin n)).image H.l2Id := by
      rw [Finset.image_insert, Finset.image_singleton]
    rw [hD]
    refine .step (wp_shareOwner (j := j) h ha howned fun v₁ s₁ h₁ honly hsame hnode₁ => ?_)
    have hD₁ : v₁.dir .home a = some (.ownedBy (H.l2Id o)) := (honly.dir _ _ fun _ => rfl).trans hD
    have hst₁ : v₁.st .home a = .invalid := (honly.st _ _ fun _ => rfl).trans hst
    refine .step (wp_dirAt h₁ hD₁ (.step (wp_dirSet h₁ fun s₂ h₂ => ?_)))
    change H.Sees live (v₁.setDir .home a (.sharedBy {H.l2Id j, H.l2Id o})) s₂ at h₂
    rw [hids] at h₂
    refine wp_checkShared h₂ (Finset.insert_nonempty _ _) View.setDir_at
      (served_shared (AtLine.refl.nodes honly) hsame (Finset.mem_insert_self j _) hnode₁ ?_ ?_)
    · -- The memory does not get the line from its owner: the request itself is the excuse.
      intro _ hm
      refine absurd ?_ (hm hx _ (honly.trace ▸ hev))
      rw [hst, hD]
      exact ⟨rfl, rfl⟩
    · simp [hst₁]

/-- A node that leaves the sharers is no longer one of the nodes entered. -/
theorem eraseSharer_image (T : Finset (Fin n)) (j : Fin n) :
    (DirectoryEntry.sharedBy (T.image H.l2Id)).eraseSharer (H.l2Id j) =
      .sharedBy ((T.erase j).image H.l2Id) := by
  rw [Finset.image_erase (f := H.l2Id) H.l2Id_injective]
  rfl

/-- The sharers other than the node `j` give the line up. -/
theorem wp_invalidateSharers (h : H.Sees live v s) (ha : H.IsLine a) {T : Finset (Fin n)}
    (hnode : ∀ i, H.Node v a i (if i ∈ T then .shared else .none))
    {Q : Unit → State (CacheRef n) → Prop}
    (hQ : ∀ v' s', H.Sees live v' s' → NodesOnly a v v' → SameNode a j v v' →
      (∀ i ≠ j, H.Node v' a i .none) → Q () s') :
    wp (runIf (((T.erase j).image H.l2Id).card ≠ 0)
      (sendPutI H.toPlatform H.homePorts .home a ((T.erase j).image H.l2Id))) Q H.Stops s := by
  refine wp_runIf (fun hcard => ?_) fun hcard => ?_
  · have hne : (T.erase j).Nonempty := Finset.image_nonempty.1 (Finset.card_ne_zero.1 hcard)
    refine .step (wp_check (.inl (Nat.pos_of_ne_zero hcard)) (.mono (send_toL2s hne .invalidate h ha
      hnode (fun i hi => if_pos (Finset.mem_of_mem_erase hi)) (by simp)) ?_))
    rintro - s₁ ⟨v₁, h₁, honly, hnode₁, hsame⟩
    refine hQ v₁ s₁ h₁ honly (hsame j (.inl (Finset.notMem_erase j T))) fun i hi => ?_
    have := hnode₁ i
    by_cases hiT : i ∈ T <;> simpa [hi, hiT] using this
  · have hempty : T.erase j = ∅ := by
      rwa [not_not, Finset.card_eq_zero, Finset.image_eq_empty] at hcard
    refine hQ v s h ⟨rfl, fun _ _ _ => rfl, fun _ _ _ => rfl⟩ .refl fun i hi => ?_
    have hiT : i ∉ T := fun hiT => by
      have hmem := Finset.mem_erase.2 ⟨hi, hiT⟩
      rw [hempty] at hmem
      exact absurd hmem (Finset.notMem_empty i)
    have := hnode i
    rwa [if_neg hiT] at this

/-- The owner of a line hands it over to the node `j`. -/
theorem wp_takeOver (h : H.Sees live v s) (ha : H.IsLine a) {o : Fin n} (hoj : o ≠ j)
    (hnode : ∀ i, H.Node v a i (if i = o then .modified else .none))
    {Q : Unit → State (CacheRef n) → Prop}
    (hQ : ∀ v' s', H.Sees live v' s' → NodesOnly a v v' → SameNode a j v v' →
      (∀ i ≠ j, H.Node v' a i .none) → Q () s') :
    wp (sendFwdGetM H.toPlatform H.homePorts .home a {H.l2Id o}) Q H.Stops s := by
  rw [← Finset.image_singleton]
  refine .mono (send_toL2s (Finset.singleton_nonempty o) .handOver h ha hnode
    (fun i hi => if_pos (Finset.mem_singleton.1 hi)) (by simp)) ?_
  rintro - s₁ ⟨v₁, h₁, honly, hnode₁, hsame⟩
  refine hQ v₁ s₁ h₁ honly (hsame j (.inl (by simpa using hoj.symm))) fun i _ => ?_
  have := hnode₁ i
  by_cases hio : i = o <;> simpa [hio] using this

/-- The assertions after a write request hold once the owner is entered. -/
theorem wp_checkOwned (h : H.Sees live v' s) (hD : v'.dir .home a = some (.ownedBy (H.l2Id j)))
    (hserved : H.Served j a .modified v v') :
    wp (do
      checkDir H.toPlatform .home a fun e => e.state = .modified
      checkDir H.toPlatform .home a fun e => e.owner = H.l2Id j
      checkDir H.toPlatform .home a fun e => e.sharers.card = 0)
      (fun _ s' => ∃ v', H.Sees live v' s' ∧ H.Served j a .modified v v') H.Stops s := by
  refine wp_checkEntry h hD ?_ ?_ ?_ ?_
  · rfl
  · rfl
  · rfl
  · exact ⟨_, h, hserved⟩

/-- A node that owns a line nobody else holds. -/
theorem OwnLine.own (h : OwnLine a v v') (hnode : ∀ i ≠ j, H.Node v a i .none)
    (hx : H.Exclusive ∨ ¬ H.Excused v'.trace → v'.st .home a ≠ .modified)
    (hclean : H.Exclusive → (∀ e ∈ v'.trace, ¬ e.SharedHit) → v'.st .home a = .invalid) :
    H.Served j a .modified v (v'.setDir .home a (.ownedBy (H.l2Id j))) :=
  served_owned h.atLine (h.same j) (fun i hi => (h.same i).node.2 (hnode i hi)) hx hclean

/-- `GetM` of a node that does not own the line, for a line that the home has or allocates. -/
theorem homeGetM_spec (h : H.Sees live v s) (ha : H.IsLine a) {p : LineRef}
    (hp : (.home, p, a) ∈ live) {hit : Bool} (hhit : hit = true ↔ v.st .home a ≠ .invalid)
    (hmissx : hit = false → ¬ H.Exclusive) (hinv : H.HomeInv v a) {hold : Fin n → Holding}
    (hnode : ∀ i, H.Node v a i (hold i))
    (hhome : H.HomeIs (v.dir .home a) hold) (hj : hold j ≠ .modified)
    (hev : .homeRequest .getM (H.l2Id j) a (v.st .home a) (v.dir .home a) ∈ v.trace) :
    wp (homeGetM H.toPlatform H.homePorts .home hit p a (H.l2Id j))
      (fun _ s' => ∃ v', H.Sees live v' s' ∧ H.Served j a .modified v v') H.Stops s := by
  refine .step (wp_getLine h hp fun line haddr _ => ?_)
  rw [haddr]
  refine .step (wp_dirFind h ?_)
  have hmiss : hit = false → v.st .home a = .invalid := fun hf => by
    rwa [← Bool.not_eq_true, hhit, not_not] at hf
  -- A modified line of the home makes the request unforeseen.
  have hforeseen {v₁} (hown : OwnLine a v v₁) (hx : ¬ H.Excused v₁.trace) :
      v.st .home a ≠ .modified := by
    intro hM
    refine hx (hown.atLine.excused fun _ => ⟨_, hev, ?_⟩)
    rw [hM]
    trivial
  have hcopy {v₁} (hown : OwnLine a v v₁) (hm : ∀ e ∈ v₁.trace, ¬ e.SharedHit) :
      v.st .home a ≠ .shared := by
    intro hS
    refine hm _ (hown.atLine.mem_trace hev) ?_
    rw [hS]
    trivial
  cases hhome with
  | uncached hD hhold =>
    simp only [hhold] at hnode
    have hend {v₁ s₁} (h₁ : H.Sees live v₁ s₁) (hown : OwnLine a v v₁)
        (hx : H.Exclusive ∨ ¬ H.Excused v₁.trace → v₁.st .home a ≠ .modified)
        (hclean : H.Exclusive → (∀ e ∈ v₁.trace, ¬ e.SharedHit) → v₁.st .home a = .invalid) :
        wp (do
          dirSet .home a (.ownedBy (H.l2Id j))
          checkDir H.toPlatform .home a fun e => e.state = .modified
          checkDir H.toPlatform .home a fun e => e.owner = H.l2Id j
          checkDir H.toPlatform .home a fun e => e.sharers.card = 0)
          (fun _ s' => ∃ v', H.Sees live v' s' ∧ H.Served j a .modified v v') H.Stops s₁ :=
      .step (wp_dirSet h₁ fun s₂ h₂ => wp_checkOwned h₂ View.setDir_at
        (hown.own (fun i _ => hnode i) hx hclean))
    rcases hD with hD | hD
    · have hst := hinv.st_of_absent hD
      have hf : hit = false := by rw [← Bool.not_eq_true, hhit, not_not, hst]
      rw [hD]
      refine .step (wp_check (.inl hf) (wp_readLine h ha hp fun v₁ s₁ h₁ hown hst₁ => ?_))
      exact hend h₁ hown (by simp [hst₁]) fun hex => absurd hex (hmissx hf)
    · rw [hD]
      refine .step (wp_check (.inl rfl) (.step (wp_check (.inl rfl) ?_)))
      cases hit with
      | false =>
        exact wp_readLine h ha hp fun v₁ s₁ h₁ hown hst₁ => hend h₁ hown (by simp [hst₁])
          fun hex => absurd hex (hmissx rfl)
      | true =>
        refine .step (wp_homeCleanModified h ha hp fun v₁ s₁ h₁ hown hx hM hS => hend h₁ hown ?_ ?_)
        · exact fun hor => hor.elim hx fun hnx => hM (hforeseen hown hnx)
        · exact fun hex hm => hS hex (hcopy hown hm)
  | shared T hT hD hhold =>
    have hshared : ∀ i, H.Node v a i (if i ∈ T then .shared else .none) := fun i => hhold i ▸ hnode i
    have hend {v₁ s₁} (h₁ : H.Sees live v₁ s₁) (hown : OwnLine a v v₁)
        (hx : H.Exclusive ∨ ¬ H.Excused v₁.trace → v₁.st .home a ≠ .modified)
        (hclean : H.Exclusive → (∀ e ∈ v₁.trace, ¬ e.SharedHit) → v₁.st .home a = .invalid) :
        wp (do
          dirModify .home a fun e => e.eraseSharer (H.l2Id j)
          let e ← dirAt .home a
          check H.toPlatform (H.l2Id j ∉ e.sharers)
          runIf (e.sharers.card ≠ 0) (sendPutI H.toPlatform H.homePorts .home a e.sharers)
          dirSet .home a (.ownedBy (H.l2Id j))
          checkDir H.toPlatform .home a fun e => e.state = .modified
          checkDir H.toPlatform .home a fun e => e.owner = H.l2Id j
          checkDir H.toPlatform .home a fun e => e.sharers.card = 0)
          (fun _ s' => ∃ v', H.Sees live v' s' ∧ H.Served j a .modified v v') H.Stops s₁ := by
      refine .step (wp_dirModify h₁ (hown.dir.trans hD) fun s₂ h₂ => ?_)
      rw [eraseSharer_image] at h₂
      refine .step (wp_dirAt h₂ View.setDir_at (.step (wp_check (.inl ?_) (.step ?_))))
      · change H.l2Id j ∉ (T.erase j).image H.l2Id
        rw [Finset.image_erase (f := H.l2Id) H.l2Id_injective]
        exact Finset.notMem_erase _ _
      have hsame₂ (i : Fin n) := (hown.same i).setDir_home (.sharedBy ((T.erase j).image H.l2Id))
      refine wp_invalidateSharers (j := j) h₂ ha (fun i => (hsame₂ i).node.2 (hshared i))
        fun v₃ s₃ h₃ honly hsame hnode₃ => .step (wp_dirSet h₃ fun s₄ h₄ => ?_)
      refine wp_checkOwned h₄ View.setDir_at (served_owned ((hown.atLine.setDir _ _).nodes honly)
        ((hsame₂ j).trans hsame) hnode₃ ?_ ?_)
      · rw [honly.trace, honly.st _ _ fun _ => rfl]
        exact hx
      · rw [honly.trace, honly.st _ _ fun _ => rfl]
        exact hclean
    rw [hD]
    refine .step (wp_check (.inl rfl) (.step (wp_check (.inl (Finset.card_pos.2 (hT.image _))) ?_)))
    cases hit with
    | false =>
      have hx := excused_of_sharedMiss (H := H) (.inr rfl) (hmiss rfl) hD hev
      exact wp_supplyLine h ha hp hT hnode hhold hx fun v₁ s₁ h₁ hown hst₁ =>
        hend h₁ hown (by simp [hst₁]) fun hex => absurd hex (hmissx rfl)
    | true =>
      refine .step (wp_homeCleanModified h ha hp fun v₁ s₁ h₁ hown hx hM hS => hend h₁ hown ?_ ?_)
      · exact fun hor => hor.elim hx fun hnx => hM (hforeseen hown hnx)
      · exact fun hex hm => hS hex (hcopy hown hm)
  | owned o hD hhold =>
    have howned : ∀ i, H.Node v a i (if i = o then .modified else .none) := fun i => hhold i ▸ hnode i
    have hoj : o ≠ j := fun heq => hj (by rw [hhold, if_pos heq.symm])
    rw [hD]
    refine .step (wp_check (check_id (r := .l2 o) h) (.step (wp_check (.inl ?_) (.step ?_))))
    · exact fun heq => hoj (H.l2Id_injective heq)
    refine wp_check (.inl rfl) (.step (wp_takeOver h ha hoj howned fun v₁ s₁ h₁ honly hsame hnode₁ => ?_))
    have hD₁ : v₁.dir .home a = some (.ownedBy (H.l2Id o)) := (honly.dir _ _ fun _ => rfl).trans hD
    have hat : AtLine a v v₁ := AtLine.refl.nodes honly
    have hst₁ : v₁.st .home a = v.st .home a := honly.st _ _ fun _ => rfl
    refine .step (wp_dirModify h₁ hD₁ fun s₂ h₂ => .step (wp_runIf (fun hx => ?_) fun hx => ?_))
    · refine wp_setState h₂ hp ha fun s₃ h₃ => wp_checkOwned h₃ View.setDir_at (served_owned
        (hat.setSt _ _) (hsame.setSt_home _) (fun i hi => ?_) (by simp) fun _ _ => View.setSt_at)
      exact (SameNode.refl.setSt_home _).node.2 (hnode₁ i hi)
    · refine wp_checkOwned h₂ View.setDir_at
        (served_owned hat hsame hnode₁ (fun hor => ?_) fun hex => absurd hex hx)
      rw [hst₁]
      intro hM
      refine hor.elim hx fun hnx => hinv.strict (mt hat.excused hnx) hM _ hD

/-- `GetM` that an exclusive home answers without allocating is served, and the node owns the line. -/
theorem homeMissGetM_spec (h : H.Sees live v s) (ha : H.IsLine a) (hst : v.st .home a = .invalid)
    {hold : Fin n → Holding} (hnode : ∀ i, H.Node v a i (hold i))
    (hhome : H.HomeIs (v.dir .home a) hold) (hj : hold j ≠ .modified) :
    wp (homeMissGetM H.toPlatform H.homePorts .home a (H.l2Id j))
      (fun _ s' => ∃ v', H.Sees live v' s' ∧ H.Served j a .modified v v') H.Stops s := by
  refine .step (wp_dirFind h ?_)
  cases hhome with
  | uncached hD hhold =>
    simp only [hhold] at hnode
    have hread : wp (do
        H.homePorts.forwardReadData a
        dirSet .home a (.ownedBy (H.l2Id j))
        checkDir H.toPlatform .home a fun e => e.state = .modified
        checkDir H.toPlatform .home a fun e => e.owner = H.l2Id j
        checkDir H.toPlatform .home a fun e => e.sharers.card = 0)
        (fun _ s' => ∃ v', H.Sees live v' s' ∧ H.Served j a .modified v v') H.Stops s := by
      refine .step (wp_emit h fun s₁ h₁ => .step (wp_dirSet h₁ fun s₂ h₂ => ?_))
      exact wp_checkOwned h₂ View.setDir_at
        ((OwnLine.refl.emit (.inl rfl)).own (fun i _ => hnode i) (by simp [hst]) fun _ _ => hst)
    rcases hD with hD | hD
    · rw [hD]
      exact hread
    · rw [hD]
      exact hread
  | shared T hT hD hhold =>
    have hshared : ∀ i, H.Node v a i (if i ∈ T then .shared else .none) := fun i => hhold i ▸ hnode i
    rw [hD]
    refine .step (wp_check (.inl (Finset.card_ne_zero.2 (hT.image _))) (.step ?_))
    refine wp_dirModify h hD fun s₁ h₁ => ?_
    rw [eraseSharer_image] at h₁
    refine .step (wp_dirAt h₁ View.setDir_at (.step ?_))
    refine wp_invalidateSharers (j := j) h₁ ha
      (fun i => (SameNode.refl.setDir_home _).node.2 (hshared i))
      fun v₂ s₂ h₂ honly hsame hnode₂ => .step (wp_dirSet h₂ fun s₃ h₃ => ?_)
    have hst₂ : v₂.st .home a = .invalid := (honly.st _ _ fun _ => rfl).trans hst
    exact wp_checkOwned h₃ View.setDir_at (served_owned ((AtLine.refl.setDir _ _).nodes honly)
      ((SameNode.refl.setDir_home _).trans hsame) hnode₂ (by simp [hst₂]) fun _ _ => hst₂)
  | owned o hD hhold =>
    have howned : ∀ i, H.Node v a i (if i = o then .modified else .none) := fun i => hhold i ▸ hnode i
    have hoj : o ≠ j := fun heq => hj (by rw [hhold, if_pos heq.symm])
    rw [hD]
    refine .step (wp_check (check_id (r := .l2 o) h) (.step (wp_check (.inl ?_) (.step ?_))))
    · exact fun heq => hoj (H.l2Id_injective heq)
    refine wp_takeOver h ha hoj howned fun v₁ s₁ h₁ honly hsame hnode₁ => ?_
    have hD₁ : v₁.dir .home a = some (.ownedBy (H.l2Id o)) := (honly.dir _ _ fun _ => rfl).trans hD
    refine .step (wp_dirModify h₁ hD₁ fun s₂ h₂ => ?_)
    have hst₁ : v₁.st .home a = .invalid := (honly.st _ _ fun _ => rfl).trans hst
    exact wp_checkOwned h₂ View.setDir_at
      (served_owned (AtLine.refl.nodes honly) hsame hnode₁ (by simp [hst₁]) fun _ _ => hst₁)

/-- `PutS` of a sharer is served, and the node holds nothing. -/
theorem homePutS_spec (h : H.Sees live v s) (ha : H.IsLine a) {p : LineRef}
    (hp : (.home, p, a) ∈ live) {hit : Bool} (hinv : H.HomeInv v a) {hold : Fin n → Holding}
    (hnode : ∀ i ≠ j, H.Node v a i (hold i)) (hhome : H.HomeIs (v.dir .home a) hold)
    (hj : hold j = .shared) :
    wp (homePutS H.toPlatform .home hit p (H.l2Id j))
      (fun _ s' => ∃ v', H.Sees live v' s' ∧ H.Served j a .none v v') H.Stops s := by
  obtain ⟨T, hjT, hD, hhold⟩ : ∃ T : Finset (Fin n), j ∈ T ∧
      v.dir .home a = some (.sharedBy (T.image H.l2Id)) ∧
      ∀ i, hold i = if i ∈ T then .shared else .none := by
    cases hhome with
    | uncached _ hhold => simp [hhold] at hj
    | owned o _ hhold =>
      rw [hhold] at hj
      split at hj <;> cases hj
    | shared T _ hD hhold =>
      refine ⟨T, ?_, hD, hhold⟩
      by_contra hjT
      simp [hhold, hjT] at hj
  -- An exclusive home has no modified line that nodes share.
  have hxM (hx : H.Exclusive) : v.st .home a ≠ .modified := fun hM => by
    have hD' := hinv.exclusive hx hM
    simp [hD, DirectoryEntry.sharedBy, DirectoryEntry.uncached] at hD'
  have hdirty (hd : Dirty a v.trace) (hm : H.Exclusive → ∀ e ∈ v.trace, ¬ e.OwnedMiss a) :
      v.st .home a = .modified := by
    refine (hinv.dirty hd hm).resolve_left ?_
    rintro ⟨o, ho⟩
    simp [hD, DirectoryEntry.sharedBy, DirectoryEntry.ownedBy] at ho
  refine .step (wp_getLine h hp fun line haddr _ => ?_)
  rw [haddr]
  refine .step (wp_checkFound h hD (.step (wp_checkDir h hD (.inl rfl) (.step (wp_dirAt h hD ?_)))))
  refine .step (wp_check (.inl (Finset.card_pos.2 ⟨_, Finset.mem_image_of_mem _ hjT⟩)) (.step ?_))
  refine wp_check (.inl rfl) (.step (wp_check ((check_notExclusive h).imp_left .inl) (.step ?_)))
  refine wp_dirModify h hD fun s₁ h₁ => ?_
  rw [eraseSharer_image] at h₁
  refine .step (wp_dirAt h₁ View.setDir_at (.step ?_))
  by_cases hempty : T.erase j = ∅
  · have hnone : ∀ i ≠ j, H.Node v a i .none := fun i hi => by
      have hiT : i ∉ T := fun hiT => by
        have hmem := Finset.mem_erase.2 ⟨hi, hiT⟩
        rw [hempty] at hmem
        exact absurd hmem (Finset.notMem_empty i)
      simpa [hhold, hiT] using hnode i hi
    have hend {v₂ s₂} (h₂ : H.Sees live v₂ s₂) (hD₂ : v₂.dir .home a = some .uncached)
        (hserved : H.Served j a .none v v₂) :
        wp (do
          checkDir H.toPlatform .home a fun e => e.state ≠ .modified
          checkDir H.toPlatform .home a fun e => e.owner = nullIdx)
          (fun _ s' => ∃ v', H.Sees live v' s' ∧ H.Served j a .none v v') H.Stops s₂ :=
      .step (wp_checkDir h₂ hD₂ (.inl (by simp [DirectoryEntry.uncached])) (wp_checkDir h₂ hD₂ (.inl rfl)
        ⟨_, h₂, hserved⟩))
    refine wp_runIf_pos (by simp [hempty, DirectoryEntry.sharedBy]) (.step ?_)
    refine wp_dirSet h₁ fun s₂ h₂ => wp_runIf (fun hx => ?_) fun hx => ?_
    · refine wp_setState h₂ hp ha fun s₃ h₃ => hend h₃ View.setDir_at ⟨?_, ?_, ?_, fun _ => .none, ?_⟩
      · exact ((AtLine.refl.setDir _ _).setDir _ _).setSt _ _
      · exact ((SameNode.refl.setDir_home _).setDir_home _).setSt_home _
      · refine homeInv_of_unowned View.setDir_at (by simp [DirectoryEntry.uncached]) ?_ (fun _ _ => rfl)
          fun _ _ _ => rfl
        exact fun hd hm => absurd (hdirty hd hm) (hxM hx)
      · refine ⟨.uncached (.inr View.setDir_at) fun _ => rfl, rfl, fun i hi => ?_⟩
        exact (((SameNode.refl.setDir_home _).setDir_home _).setSt_home _).node.2 (hnone i hi)
    · refine hend h₂ View.setDir_at ⟨?_, ?_, ?_, fun _ => .none, ?_⟩
      · exact (AtLine.refl.setDir _ _).setDir _ _
      · exact (SameNode.refl.setDir_home _).setDir_home _
      · exact homeInv_of_unowned View.setDir_at (by simp [DirectoryEntry.uncached]) hdirty
          (fun _ _ => rfl) fun _ _ _ => rfl
      · refine ⟨.uncached (.inr View.setDir_at) fun _ => rfl, rfl, fun i hi => ?_⟩
        exact ((SameNode.refl.setDir_home _).setDir_home _).node.2 (hnone i hi)
  · have hne : (T.erase j).Nonempty := Finset.nonempty_iff_ne_empty.2 hempty
    refine wp_runIf_neg (by simpa [DirectoryEntry.sharedBy] using hempty) ?_
    refine .step (wp_checkDir h₁ View.setDir_at (.inl (by simp [DirectoryEntry.sharedBy])) ?_)
    refine wp_checkDir h₁ View.setDir_at (.inl rfl) ⟨_, h₁, AtLine.refl.setDir _ _,
      SameNode.refl.setDir_home _, ?_, fun i => if i ∈ T.erase j then .shared else .none, ?_⟩
    · refine homeInv_of_unowned View.setDir_at (by simp [DirectoryEntry.sharedBy]) hdirty
        (fun hx hM => absurd hM (hxM hx)) fun hx hm hst => ?_
      have hD' := hinv.excluded hx hm hst
      simp [hD, DirectoryEntry.sharedBy, DirectoryEntry.uncached] at hD'
    · refine ⟨.shared _ hne View.setDir_at fun _ => rfl, by simp, fun i hi => ?_⟩
      refine (SameNode.refl.setDir_home _).node.2 ?_
      simpa [hhold, hi] using hnode i hi

/-- `PutM` of the owner is served, and the node holds nothing. -/
theorem homePutM_spec (h : H.Sees live v s) (ha : H.IsLine a) {p : LineRef}
    (hp : (.home, p, a) ∈ live) {hold : Fin n → Holding} (hnode : ∀ i ≠ j, H.Node v a i (hold i))
    (hhome : H.HomeIs (v.dir .home a) hold) (hj : hold j = .modified) :
    wp (homePutM H.toPlatform .home p (H.l2Id j))
      (fun _ s' => ∃ v', H.Sees live v' s' ∧ H.Served j a .none v v') H.Stops s := by
  obtain ⟨hD, hhold⟩ : v.dir .home a = some (.ownedBy (H.l2Id j)) ∧
      ∀ i, hold i = if i = j then .modified else .none := by
    cases hhome with
    | uncached _ hhold => simp [hhold] at hj
    | shared T _ hD hhold =>
      rw [hhold] at hj
      split at hj <;> cases hj
    | owned o hD hhold =>
      obtain rfl : j = o := by
        by_contra hne
        simp [hhold, hne] at hj
      exact ⟨hD, hhold⟩
  refine .step (wp_setState h hp ha fun s₁ h₁ => .step (wp_getLine h₁ hp fun line haddr _ => ?_))
  rw [haddr]
  refine .step (wp_checkFound h₁ hD (.step (wp_dirAt h₁ hD ?_)))
  refine .step (wp_check (check_id (r := .l2 j) h₁) (.step (wp_check (.inl rfl) (.step ?_))))
  refine wp_check (.inl rfl) (wp_dirSet h₁ fun s₂ h₂ => ⟨_, h₂, (AtLine.refl.setSt _ _).setDir _ _,
    (SameNode.refl.setSt_home _).setDir_home _, ?_, fun _ => .none, ?_⟩)
  · exact homeInv_of_unowned View.setDir_at (by simp [DirectoryEntry.uncached])
      (fun _ _ => View.setSt_at) (fun _ _ => rfl) fun _ _ _ => rfl
  · refine ⟨.uncached (.inr View.setDir_at) fun _ => rfl, rfl, fun i hi => ?_⟩
    refine ((SameNode.refl.setSt_home _).setDir_home _).node.2 ?_
    simpa [hhold, hi] using hnode i hi

end Hierarchy

end Vpsim.Memory
