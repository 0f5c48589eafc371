import Vpsim.Memory.Invariant

/-!
# Commands that travel upwards

The home takes a line away from nodes, or makes its owner share it, by commands to L2 caches,
which pass them on to their L1. Such a command changes what one node holds of one line and
nothing else, and it leaves every line pointer in use intact.
-/

namespace Vpsim.Memory

open Vpsim.Lib

namespace Hierarchy

variable {n : ℕ} {H : Hierarchy n} {live : Set (CacheRef n × LineRef × ℕ)} {v : View (CacheRef n)}
  {s : State (CacheRef n)} {a : ℕ} {i j : Fin n} {c : CoherenceCommand}

/-- A state of the hierarchy with the line pointers `live` in use and the view `v`. -/
abbrev Sees (H : Hierarchy n) (live : Set (CacheRef n × LineRef × ℕ)) (v : View (CacheRef n))
    (s : State (CacheRef n)) : Prop :=
  At H.toPlatform H.IsLine live v s

/-- A trace that excuses it accounts for a failing assertion. -/
theorem stops_of_excused (h : H.Sees live v s) (hx : H.Excused v.trace) :
    FailureAllowed H.toPlatform H.Stops s :=
  fun hchecks => ⟨hchecks, h.trace_eq ▸ hx⟩

/-- The assertion that an id is not null holds, or its failure is accounted for. -/
theorem check_id (h : H.Sees live v s) {r : CacheRef n} :
    (H.cfg r).id ≠ nullIdx ∨ FailureAllowed H.toPlatform H.Stops s := by
  by_cases hid : (H.cfg r).id = nullIdx
  · exact .inr (stops_of_excused h fun hs => absurd hid (hs.id_ne r))
  · exact .inl hid

/-- Line sizes are positive. -/
theorem lineSize_pos (r : CacheRef n) : 0 < (H.cfg r).geometry.cacheLineSize := by
  rw [H.lineSize_eq]
  positivity

/-- The offset bits are the bits of the line size. -/
theorem offsetBits_eq (r : CacheRef n) : (H.cfg r).geometry.offsetBits = H.lineBits := by
  rw [Geometry.offsetBits, H.lineSize_eq, log2_two_pow]

/-- Line addresses have no offset. -/
theorem IsLine.offset_eq (ha : H.IsLine a) (r : CacheRef n) : (H.cfg r).geometry.offset a = 0 := by
  rw [Geometry.offset_eq, offsetBits_eq]
  exact Nat.mod_eq_zero_of_dvd ha.aligned

/-- The state in which a command of the L2 leaves the L1. -/
def l1After : CoherenceCommand → CoherenceState
  | .fwdGetS => .shared
  | _ => .invalid

/-- A command of the L2 for a line that its L1 has changes the state of this line only. -/
theorem accessCpuCache_up (h : H.Sees live v s) (ha : H.IsLine a)
    (hc : c = .fwdGetS ∨ c = .fwdGetM ∨ c = .putI) (hvalid : v.st (.l1 j) a ≠ .invalid)
    (hputI : c = .putI → v.st (.l1 j) a = .shared) {size handle : ℕ} :
    wp (accessCpuCache H.toPlatform noPorts (.l1 j) c (H.l2Id j) handle 1 size a)
      (fun _ s' => H.Sees live (v.setSt (.l1 j) a (l1After c)) s') H.Stops s := by
  refine wp.bind (R := fun res s' => res = none ∧ H.Sees live (v.setSt (.l1 j) a (l1After c)) s')
    ?_ ?_
  · refine .step (wp_lookup h ha rfl rfl (fun hf => ⟨_, hf⟩) (fun p s₁ _ h₁ => ?_) ?_)
    · refine .step (wp_notifyVictim h₁ fun s₂ _ h₂ => ?_)
      refine .step (wp_getLine h₂ (Set.mem_insert _ _) fun line haddr hst => ?_)
      refine .step (wp_check (.inl (.inr ?_)) ?_)
      · rw [haddr, Nat.sub_self]
        exact ⟨le_rfl, lineSize_pos _⟩
      have hset (x : CoherenceState) : wp (setState (.l1 j) p x)
          (fun _ s' => H.Sees live (v.setSt (.l1 j) a x) s') H.Stops s₂ :=
        wp_setState h₂ (Set.mem_insert _ _) ha fun s₃ h₃ => h₃.weaken (Set.subset_insert _ _)
      rcases hc with rfl | rfl | rfl
      · refine .bind (.step (wp_check (check_id h₂) (.step (wp_check (.inl rfl) (hset .shared))))) ?_
        exact fun _ s₃ h₃ => ⟨rfl, h₃⟩
      · refine .bind (.step (wp_check (check_id h₂) (.step (wp_check (.inl rfl) (hset .invalid))))) ?_
        exact fun _ s₃ h₃ => ⟨rfl, h₃⟩
      · refine .bind (.step (wp_check (.inl rfl) (.step ?_))) fun _ s₃ h₃ => ⟨rfl, h₃⟩
        refine wp_getLine h₂ (Set.mem_insert _ _) fun line _ hst => ?_
        exact .step (wp_check (.inl (hst.trans (hputI rfl))) (hset .invalid))
    · exact fun _ _ hinv => absurd hinv hvalid
  · rintro res s' ⟨rfl, h'⟩
    exact h'

/-- A command of an L2 cache to its L1 changes the state of this line only. -/
theorem send_up {io : Ports (CacheRef n)} (hio : io.socketOut1 = H.toL1 i) (h : H.Sees live v s)
    (ha : H.IsLine a) (hc : c = .fwdGetS ∨ c = .fwdGetM ∨ c = .putI) {ids : Finset ℕ}
    (hids : H.l1Id i ∈ ids) (hvalid : v.st (.l1 i) a ≠ .invalid)
    (hputI : c = .putI → v.st (.l1 i) a = .shared) :
    wp (sendCoherenceTransaction H.toPlatform io (.l2 i) c a ids)
      (fun _ s' => H.Sees live (v.setSt (.l1 i) a (l1After c)) s') H.Stops s := by
  have hhigher : c.toHigher = true := by
    rcases hc with rfl | rfl | rfl <;> rfl
  have hnotHome : (H.cfg (.l2 i)).isHome = false := by
    rw [H.isHome_eq]
    rfl
  unfold sendCoherenceTransaction
  dsimp only
  rw [if_pos hhigher, hnotHome]
  refine .step (wp_runIf_neg (by simp) ?_)
  rw [if_neg (by simp), hio]
  exact wp_runIf_pos hids (accessCpuCache_up h ha hc hvalid hputI)

/-- Only what the node `i` has of the line `a` changes. -/
structure Local (a : ℕ) (i : Fin n) (v v' : View (CacheRef n)) : Prop where
  trace : v'.trace = v.trace
  st : ∀ r b, (b = a → r ≠ .l1 i ∧ r ≠ .l2 i) → v'.st r b = v.st r b
  dir : ∀ r b, (b = a → r ≠ .l1 i ∧ r ≠ .l2 i) → v'.dir r b = v.dir r b

namespace Local

variable {v' : View (CacheRef n)} {r : CacheRef n}

/-- Nothing changes. -/
theorem refl : Local a i v v := ⟨rfl, fun _ _ _ => rfl, fun _ _ _ => rfl⟩

/-- A cache of the node changes its line. -/
theorem setSt {x : CoherenceState} (h : Local a i v v') (hr : r = .l1 i ∨ r = .l2 i) :
    Local a i v (v'.setSt r a x) := by
  refine ⟨h.trace, fun r' b hrb => ?_, h.dir⟩
  rw [View.setSt_st, if_neg, h.st r' b hrb]
  rintro ⟨rfl, hb⟩
  exact hr.elim (hrb hb).1 (hrb hb).2

/-- A cache of the node changes its directory entry. -/
theorem setDir {e : DirectoryEntry} (h : Local a i v v') (hr : r = .l1 i ∨ r = .l2 i) :
    Local a i v (v'.setDir r a e) := by
  refine ⟨h.trace, h.st, fun r' b hrb => ?_⟩
  rw [View.setDir_dir, if_neg, h.dir r' b hrb]
  rintro ⟨rfl, hb⟩
  exact hr.elim (hrb hb).1 (hrb hb).2

/-- One change after the other. -/
theorem trans {v'' : View (CacheRef n)} (h : Local a i v v') (h' : Local a i v' v'') : Local a i v v'' :=
  ⟨h'.trace.trans h.trace, fun r b hrb => (h'.st r b hrb).trans (h.st r b hrb),
    fun r b hrb => (h'.dir r b hrb).trans (h.dir r b hrb)⟩

end Local

/-- What the commands of the home do to the holding of a node. -/
inductive Forwards : CoherenceCommand → Holding → Holding → Prop
  | share : Forwards .fwdGetS .modified .shared
  | supply : Forwards .fwdGetS .shared .shared
  | handOver : Forwards .fwdGetM .modified .none
  | invalidate : Forwards .putI .shared .none

/-- An L2 whose node holds the line has an entry, which says where in the node the line is. -/
theorem Node.entry {k : Holding} (hnode : H.Node v a i k) (hk : k ≠ .none) :
    ∃ e, v.dir (.l2 i) a = some e ∧
      (e.state = .modified →
        e = .ownedBy (H.l1Id i) ∧ v.st (.l1 i) a = .modified ∧ v.st (.l2 i) a ≠ .modified) ∧
      (e.state = .shared → e = .sharedBy {H.l1Id i} ∧ v.st (.l1 i) a = .shared) ∧
      (e.state = .invalid → e = .uncached ∧ v.st (.l1 i) a = .invalid ∧ v.st (.l2 i) a ≠ .invalid) ∧
      (k = .modified → v.st (.l2 i) a = .modified ∨ e.state = .modified) ∧
      (k = .shared → v.st (.l2 i) a ≠ .modified ∧ e.state ≠ .modified) := by
  cases k with
  | none => exact absurd rfl hk
  | shared =>
    rcases hnode with ⟨hl, hd, hx⟩ | ⟨hl, hd, hx⟩
    · exact ⟨_, hd, by simp [DirectoryEntry.uncached, hl, hx]⟩
    · exact ⟨_, hd, by simp [DirectoryEntry.sharedBy, hl, hx]⟩
  | modified =>
    rcases hnode with ⟨hl, hd, hx⟩ | ⟨hl, hd, hx⟩ | ⟨hl, hd, hx⟩
    · exact ⟨_, hd, by simp [DirectoryEntry.uncached, hl, hx]⟩
    · exact ⟨_, hd, by simp [DirectoryEntry.sharedBy, hl, hx]⟩
    · exact ⟨_, hd, by simp [DirectoryEntry.ownedBy, hl, hx]⟩

/-- `FwdGetS` at a node that holds the line leaves the node sharing it. -/
theorem l2FwdGetS_spec {k : Holding} (hk : Forwards .fwdGetS k .shared) (h : H.Sees live v s)
    (ha : H.IsLine a) (hnode : H.Node v a i k) (hx : k = .shared → H.Excused v.trace) {hit : Bool}
    {p : LineRef} (hhit : hit = true ↔ v.st (.l2 i) a ≠ .invalid)
    (hp : hit = true → (.l2 i, p, a) ∈ live) :
    wp (l2FwdGetS H.toPlatform (H.l2UpPorts i) (.l2 i) hit p a (H.cfg .home).id)
      (fun _ s' => ∃ v', H.Sees live v' s' ∧ H.Node v' a i .shared ∧ Local a i v v' ∧
        (k = .shared → v' = v)) H.Stops s := by
  have hk0 : k ≠ .none := by cases hk <;> simp
  obtain ⟨e, he, howned, hshared, hinvalid, hkm, hks⟩ := hnode.entry hk0
  have hmod : (hit = true ∧ ((s.cache (.l2 i)).line p).state = .modified) ↔
      v.st (.l2 i) a = .modified := by
    constructor
    · rintro ⟨ht, hst⟩
      rw [← h.line_state (hp ht), hst]
    · intro hst
      have ht : hit = true := hhit.2 (by simp [hst])
      exact ⟨ht, (h.line_state (hp ht)).trans hst⟩
  have hmiss : hit = false ↔ v.st (.l2 i) a = .invalid := by
    rw [← Bool.not_eq_true, hhit, not_not]
  refine .step (wp_getLine_any ?_)
  refine .step (wp_check (check_id h) (.step (wp_checkFound h he (.step ?_))))
  refine wp_runIf_checkDir h (fun hm => ⟨e, he, .inl fun hinv => ?_⟩) (.step ?_)
  · exact (hinvalid hinv).2.2 (hmiss.1 hm)
  refine wp_runIf_checkDir h (fun hm => ⟨e, he, ?_⟩) (.step ?_)
  · rw [hmod] at hm
    cases hk with
    | share => exact .inl ((hkm rfl).resolve_left hm.2)
    | supply => exact .inr (stops_of_excused h (hx rfl))
  obtain ⟨v₁, hv₁⟩ : ∃ v₁, v₁ = if v.st (.l2 i) a = .modified then v.setSt (.l2 i) a .shared else v :=
    ⟨_, rfl⟩
  have hdir₁ : v₁.dir = v.dir := by
    rw [hv₁]
    split <;> rfl
  have hl1 : v₁.st (.l1 i) a = v.st (.l1 i) a := by
    rw [hv₁]
    split <;> simp
  refine .mono (Q := fun _ s₁ => H.Sees live v₁ s₁) ?_ fun _ s₁ h₁ => .step ?_
  · refine wp_runIf (fun hm => ?_) fun hm => ?_
    · refine wp_setState h (hp hm.1) ha fun s' h' => ?_
      rw [hv₁, if_pos (hmod.1 hm)]
      exact h'
    · rw [hv₁, if_neg (mt hmod.2 hm)]
      exact h
  have he₁ : v₁.dir (.l2 i) a = some e := by rw [hdir₁, he]
  refine .mono (Q := fun _ s₁ => H.Sees live v₁ s₁) ?_ fun _ s₂ h₂ => .step (wp_dirAt h₂ he₁ (.step ?_))
  · refine wp_runIf (fun _ => .step (wp_dirAt h₁ he₁ (wp_runIf (fun hes => ?_) fun _ => h₁))) fun _ => h₁
    -- The L1 supplies the line it shares and keeps it shared.
    obtain ⟨rfl, hst⟩ := hshared hes
    have hself : v₁.setSt (.l1 i) a .shared = v₁ := View.setSt_self (hl1.trans hst)
    have hsend : wp (sendFwdGetS H.toPlatform (H.l2UpPorts i) (.l2 i) a {H.l1Id i})
        (fun _ s' => H.Sees live (v₁.setSt (.l1 i) a .shared) s') H.Stops s₁ :=
      send_up rfl h₁ ha (.inl rfl) (Finset.mem_singleton_self _) (by rw [hl1, hst]; simp) (by simp)
    rw [hself] at hsend
    exact hsend
  have hl2 (ht : hit = true) : v₁.st (.l2 i) a = .shared := by
    have hne := hhit.1 ht
    rw [hv₁]
    split
    · simp
    · rename_i hm
      cases hl : v.st (.l2 i) a <;> simp_all
  -- What is left are the assertions on the entry and on the line.
  have hend {v' s'} (h' : H.Sees live v' s') {e' : DirectoryEntry} (he' : v'.dir (.l2 i) a = some e')
      (hstate : e'.state ≠ .modified) (howner : e'.owner = nullIdx)
      (hst : v'.st (.l2 i) a = v₁.st (.l2 i) a) {Q : Unit → State (CacheRef n) → Prop} (hQ : Q () s') :
      wp (do
        checkDir H.toPlatform (.l2 i) a fun e => e.state ≠ .modified
        checkDir H.toPlatform (.l2 i) a fun e => e.owner = nullIdx
        let line ← getLine (.l2 i) p
        check H.toPlatform (hit = false ∨ line.state = .shared)) Q H.Stops s' := by
    refine .step (wp_checkDir h' he' (.inl hstate) (.step (wp_checkDir h' he' (.inl howner) ?_)))
    refine .step (wp_getLine_any (wp_check (.inl ?_) hQ))
    cases ht : hit with
    | false => exact .inl rfl
    | true => exact .inr (by rw [h'.line_state (hp ht), hst, hl2 ht])
  by_cases hem : e.state = .modified
  · obtain ⟨rfl, hst, hne⟩ := howned hem
    rw [if_neg hne] at hv₁
    subst hv₁
    refine wp_runIf_pos hem (.step (.mono (send_up (c := .fwdGetS) rfl h₂ ha (.inl rfl)
      (Finset.mem_singleton_self _) (by rw [hst]; simp) (by simp)) fun _ s₃ h₃ => ?_))
    refine .step (wp_dirAt h₃ he (wp_dirSet h₃ fun s₄ h₄ => ?_))
    refine hend h₄ View.setDir_at (by simp [DirectoryEntry.sharedBy]) rfl (by simp) ⟨_, h₄, .inr ?_, ?_, ?_⟩
    · simp [l1After, hne, DirectoryEntry.ownedBy]
    · exact (Local.refl.setSt (.inl rfl)).setDir (.inr rfl)
    · intro hks'
      exact absurd hem (hks hks').2
  · refine wp_runIf_neg hem (hend h₂ he₁ hem ?_ rfl ⟨v₁, h₂, ?_, ?_, ?_⟩)
    · cases hes : e.state with
      | modified => exact absurd hes hem
      | shared => rw [(hshared hes).1, DirectoryEntry.sharedBy]
      | invalid => rw [(hinvalid hes).1, DirectoryEntry.uncached]
    · by_cases hl : v.st (.l2 i) a = .modified
      · rw [hv₁, if_pos hl]
        cases hes : e.state with
        | modified => exact absurd hes hem
        | shared =>
          obtain ⟨rfl, hst⟩ := hshared hes
          exact .inr (by simp [he, hst])
        | invalid =>
          obtain ⟨rfl, hst, -⟩ := hinvalid hes
          exact .inl (by simp [he, hst])
      · rw [hv₁, if_neg hl]
        cases hk with
        | share => exact absurd (hkm rfl) (not_or_intro hl hem)
        | supply => exact hnode
    · rw [hv₁]
      split
      · exact Local.refl.setSt (.inr rfl)
      · exact Local.refl
    · intro hks'
      rw [hv₁, if_neg (hks hks').1]

/-- The assertions with which an L2 cache gives a line up hold when it has no entry and no copy. -/
theorem wp_givenUp {v' : View (CacheRef n)} {s' : State (CacheRef n)} (h : H.Sees live v' s')
    (hd : v'.dir (.l2 i) a = some .uncached) (hst : v'.st (.l2 i) a = .invalid) {hit : Bool}
    {p : LineRef} (hp : hit = true → (.l2 i, p, a) ∈ live) {Q : Unit → State (CacheRef n) → Prop}
    (hQ : Q () s') :
    wp (do
      checkDir H.toPlatform (.l2 i) a fun e => e.state = .invalid
      checkDir H.toPlatform (.l2 i) a fun e => e.owner = nullIdx
      checkDir H.toPlatform (.l2 i) a fun e => e.sharers.card = 0
      let line ← getLine (.l2 i) p
      check H.toPlatform (hit = false ∨ line.state = .invalid)) Q H.Stops s' := by
  refine .step (wp_checkDir h hd (.inl rfl) (.step (wp_checkDir h hd (.inl rfl) ?_)))
  refine .step (wp_checkDir h hd (.inl rfl) (.step (wp_getLine_any (wp_check (.inl ?_) hQ))))
  cases ht : hit with
  | false => exact .inl rfl
  | true => exact .inr (by rw [h.line_state (hp ht), hst])

/-- An L2 cache gives up its own line if it has it. -/
theorem wp_dropLine (h : H.Sees live v s) (ha : H.IsLine a) {hit : Bool} {p : LineRef}
    (hhit : hit = true ↔ v.st (.l2 i) a ≠ .invalid) (hp : hit = true → (.l2 i, p, a) ∈ live)
    {v₁ : View (CacheRef n)} (hv₁ : v₁ = v.setSt (.l2 i) a .invalid) :
    wp (runIf (hit = true) (setState (.l2 i) p .invalid)) (fun _ s₁ => H.Sees live v₁ s₁) H.Stops s := by
  refine wp_runIf (fun ht => ?_) fun ht => ?_
  · rw [hv₁]
    exact wp_setState h (hp ht) ha fun s' h' => h'
  · have hinv : v.st (.l2 i) a = .invalid := not_not.1 (mt hhit.2 ht)
    rw [hv₁, View.setSt_self hinv]
    exact h

/-- Once the L2 has given up its own line and the L1 has been told, the node holds nothing. -/
theorem node_givenUp {v' : View (CacheRef n)} (hv' : v' = v.setSt (.l2 i) a .invalid) :
    H.Node ((v'.setSt (.l1 i) a .invalid).setDir (.l2 i) a .uncached) a i .none ∧
      Local a i v ((v'.setSt (.l1 i) a .invalid).setDir (.l2 i) a .uncached) := by
  rw [hv']
  refine ⟨by simp [Node], ?_⟩
  exact ((Local.refl.setSt (.inr rfl)).setSt (.inl rfl)).setDir (.inr rfl)

/-- `FwdGetM` at the node that owns the line leaves the node without it. -/
theorem l2FwdGetM_spec (h : H.Sees live v s) (ha : H.IsLine a) (hnode : H.Node v a i .modified)
    {hit : Bool} {p : LineRef} (hhit : hit = true ↔ v.st (.l2 i) a ≠ .invalid)
    (hp : hit = true → (.l2 i, p, a) ∈ live) :
    wp (l2FwdGetM H.toPlatform (H.l2UpPorts i) (.l2 i) hit p a (H.cfg .home).id)
      (fun _ s' => ∃ v', H.Sees live v' s' ∧ H.Node v' a i .none ∧ Local a i v v') H.Stops s := by
  obtain ⟨e, he, howned, hshared, hinvalid, hkm, -⟩ := hnode.entry (by simp)
  refine .step (wp_getLine_any (.step (wp_check (check_id h) (.step (wp_checkFound h he (.step ?_))))))
  refine wp_runIf_checkDir h (fun hm => ⟨e, he, .inl ((hkm rfl).resolve_left fun hl => hm ?_)⟩) (.step ?_)
  · have ht : hit = true := hhit.2 (by simp [hl])
    exact ⟨ht, (h.line_state (hp ht)).trans hl⟩
  obtain ⟨v₁, hv₁⟩ : ∃ v₁, v₁ = v.setSt (.l2 i) a .invalid := ⟨_, rfl⟩
  have he₁ : v₁.dir (.l2 i) a = some e := by rw [hv₁, View.setSt_dir, he]
  have hl1 : v₁.st (.l1 i) a = v.st (.l1 i) a := by simp [hv₁]
  refine .mono (Q := fun _ s₁ => H.Sees live v₁ s₁) ?_ fun _ s₁ h₁ => .step (wp_dirAt h₁ he₁ ?_)
  · exact wp_dropLine h ha hhit hp hv₁
  obtain ⟨hnone, hlocal⟩ := node_givenUp (H := H) hv₁
  cases hes : e.state with
  | shared =>
    obtain ⟨rfl, hst⟩ := hshared hes
    refine .step (.mono (send_up rfl h₁ ha (.inr (.inl rfl)) (Finset.mem_singleton_self _)
      (by rw [hl1, hst]; simp) (by simp)) fun _ s₂ h₂ => .step (wp_dirSet h₂ fun s₃ h₃ => ?_))
    exact wp_givenUp h₃ (by simp) hnone.1 hp ⟨_, h₃, hnone, hlocal⟩
  | modified =>
    obtain ⟨rfl, hst, -⟩ := howned hes
    refine .step (.mono (send_up rfl h₁ ha (.inr (.inl rfl)) (Finset.mem_singleton_self _)
      (by rw [hl1, hst]; simp) (by simp)) fun _ s₂ h₂ => .step (wp_dirSet h₂ fun s₃ h₃ => ?_))
    exact wp_givenUp h₃ (by simp) hnone.1 hp ⟨_, h₃, hnone, hlocal⟩
  | invalid =>
    obtain ⟨rfl, hst, -⟩ := hinvalid hes
    refine wp_givenUp h₁ he₁ (by simp [hv₁]) hp ⟨v₁, h₁, ?_, ?_⟩
    · exact ⟨by simp [hv₁], .inr he₁, hl1.trans hst⟩
    · rw [hv₁]
      exact Local.refl.setSt (.inr rfl)

/-- `PutI` at a node that shares the line leaves the node without it. -/
theorem l2PutI_spec (h : H.Sees live v s) (ha : H.IsLine a) (hnode : H.Node v a i .shared)
    {hit : Bool} {p : LineRef} (hhit : hit = true ↔ v.st (.l2 i) a ≠ .invalid)
    (hp : hit = true → (.l2 i, p, a) ∈ live) :
    wp (l2PutI H.toPlatform (H.l2UpPorts i) (.l2 i) hit p a)
      (fun _ s' => ∃ v', H.Sees live v' s' ∧ H.Node v' a i .none ∧ Local a i v v') H.Stops s := by
  obtain ⟨e, he, -, hshared, hinvalid, -, hks⟩ := hnode.entry (by simp)
  obtain ⟨hnotM, hnotOwned⟩ := hks rfl
  refine .step (wp_getLine_any (.step (wp_checkFound h he (.step ?_))))
  refine wp_runIf_checkDir h (fun hm => ⟨e, he, .inl ?_⟩) (.step ?_)
  · cases hes : e.state with
    | shared => rfl
    | modified => exact absurd hes hnotOwned
    | invalid =>
      have ht : hit = true := hhit.2 (hinvalid hes).2.2
      refine absurd ⟨ht, (h.line_state (hp ht)).trans ?_⟩ hm
      have := hhit.1 ht
      cases hl : v.st (.l2 i) a <;> simp_all
  refine .mono (Q := fun _ s₁ => s₁ = s) ?_ fun _ s₁ hs₁ => .step ?_
  · refine wp_runIf (fun ht => .step (wp_check (.inl ?_) (wp_checkDir h he (.inl hnotOwned) rfl)))
      fun _ => rfl
    rw [h.line_state (hp ht)]
    exact hnotM
  subst hs₁
  obtain ⟨v₁, hv₁⟩ : ∃ v₁, v₁ = v.setSt (.l2 i) a .invalid := ⟨_, rfl⟩
  have he₁ : v₁.dir (.l2 i) a = some e := by rw [hv₁, View.setSt_dir, he]
  have hl1 : v₁.st (.l1 i) a = v.st (.l1 i) a := by simp [hv₁]
  refine .mono (Q := fun _ s₁ => H.Sees live v₁ s₁) ?_ fun _ s₁ h₁ => .step (wp_dirAt h₁ he₁ (.step ?_))
  · exact wp_dropLine h ha hhit hp hv₁
  obtain ⟨hnone, hlocal⟩ := node_givenUp (H := H) hv₁
  cases hes : e.state with
  | modified => exact absurd hes hnotOwned
  | shared =>
    obtain ⟨rfl, hst⟩ := hshared hes
    refine wp_runIf_pos rfl (.step (.step (wp_check (.inl (by simp [DirectoryEntry.sharedBy])) ?_)))
    refine .mono (send_up rfl h₁ ha (.inr (.inr rfl)) (Finset.mem_singleton_self _)
      (by rw [hl1, hst]; simp) fun _ => hl1.trans hst) fun _ s₂ h₂ => wp_dirSet h₂ fun s₃ h₃ => ?_
    exact wp_givenUp h₃ (by simp) hnone.1 hp ⟨_, h₃, hnone, hlocal⟩
  | invalid =>
    obtain ⟨rfl, hst, -⟩ := hinvalid hes
    refine wp_runIf_neg (by simp) (wp_givenUp h₁ he₁ (by simp [hv₁]) hp ⟨v₁, h₁, ?_, ?_⟩)
    · exact ⟨by simp [hv₁], .inr he₁, hl1.trans hst⟩
    · rw [hv₁]
      exact Local.refl.setSt (.inr rfl)

/-- A command of the home to a node that holds the line leaves the node holding what the command asks
for. -/
theorem accessL2Cache_up {k k' : Holding} (hf : Forwards c k k') (h : H.Sees live v s)
    (ha : H.IsLine a) (hnode : H.Node v a i k)
    (hx : c = .fwdGetS → k = .shared → H.Excused v.trace) :
    wp (accessL2Cache H.toPlatform (H.l2UpPorts i) (.l2 i) c (H.cfg .home).geometry.cacheLineSize a
        (H.cfg .home).id 0)
      (fun _ s' => ∃ v', H.Sees live v' s' ∧ H.Node v' a i k' ∧ Local a i v v' ∧ (k = k' → v' = v))
      H.Stops s := by
  obtain ⟨e, he, howned, -⟩ := hnode.entry (by cases hf <;> simp)
  refine .step (wp_lookup_either h ha (fun hfifo => ⟨_, hfifo⟩) fun hit p live' s₁ hsub h₁ hhit hp => ?_)
  refine .step (wp_getLine_any (.step (wp_check (.inl (ha.offset_eq _)) (.step ?_))))
  refine wp_check (.inl (by rw [H.lineSize_eq, H.lineSize_eq])) (.step (wp_check (.inl ?_) (.step ?_)))
  · rcases Bool.eq_false_or_eq_true hit with ht | hf
    · rw [h₁.line_address (hp ht), Nat.sub_self]
      exact .inr ⟨le_rfl, lineSize_pos _⟩
    · exact .inl hf
  refine wp_check (.inl ?_) (.step ?_)
  · rcases Bool.eq_false_or_eq_true hit with ht | hf
    · exact .inr (h₁.line_address (hp ht)).symm
    · exact .inl hf
  refine wp_runIf_checkDir h₁ (fun hm => ⟨e, he, .inl fun hes => ?_⟩) (.step ?_)
  · exact (howned hes).2.2 (by rw [← h₁.line_state (hp hm.1), hm.2])
  refine wp_notifyVictim h₁ fun s₂ _ h₂ => ?_
  cases hf with
  | share =>
    refine .mono (l2FwdGetS_spec .share h₂ ha hnode (by simp) hhit hp) ?_
    rintro - s₃ ⟨v', h₃, hnode', hlocal, -⟩
    exact ⟨v', h₃.weaken hsub, hnode', hlocal, by simp⟩
  | supply =>
    refine .mono (l2FwdGetS_spec .supply h₂ ha hnode (hx rfl) hhit hp) ?_
    rintro - s₃ ⟨v', h₃, hnode', hlocal, hsame⟩
    exact ⟨v', h₃.weaken hsub, hnode', hlocal, hsame⟩
  | handOver =>
    refine .mono (l2FwdGetM_spec h₂ ha hnode hhit hp) ?_
    rintro - s₃ ⟨v', h₃, hnode', hlocal⟩
    exact ⟨v', h₃.weaken hsub, hnode', hlocal, by simp⟩
  | invalidate =>
    refine .mono (l2PutI_spec h₂ ha hnode hhit hp) ?_
    rintro - s₃ ⟨v', h₃, hnode', hlocal⟩
    exact ⟨v', h₃.weaken hsub, hnode', hlocal, by simp⟩

/-- What nodes have of the line `a` may change; everything else stays. -/
structure NodesOnly (a : ℕ) (v v' : View (CacheRef n)) : Prop where
  trace : v'.trace = v.trace
  st : ∀ r b, (b = a → r = .home) → v'.st r b = v.st r b
  dir : ∀ r b, (b = a → r = .home) → v'.dir r b = v.dir r b

/-- What the node `i` has of the line `a` stays. -/
structure SameNode (a : ℕ) (i : Fin n) (v v' : View (CacheRef n)) : Prop where
  l1 : v'.st (.l1 i) a = v.st (.l1 i) a
  l2 : v'.st (.l2 i) a = v.st (.l2 i) a
  dir : v'.dir (.l2 i) a = v.dir (.l2 i) a

/-- A node that stays holds what it held. -/
theorem SameNode.node {v' : View (CacheRef n)} (h : SameNode a i v v') {k : Holding} :
    H.Node v' a i k ↔ H.Node v a i k := by
  cases k <;> simp only [Node, h.l1, h.l2, h.dir]

/-- A change of one node leaves the others alone. -/
theorem Local.sameNode {v' : View (CacheRef n)} (h : Local a i v v') (hij : j ≠ i) :
    SameNode a j v v' where
  l1 := h.st _ _ fun _ => by simp [hij]
  l2 := h.st _ _ fun _ => by simp [hij]
  dir := h.dir _ _ fun _ => by simp [hij]

/-- A command of the home to a set of nodes that hold the line alike. -/
theorem toL2s_spec {T : Finset (Fin n)} {k k' : Holding} (hf : Forwards c k k') (h : H.Sees live v s)
    (ha : H.IsLine a) {hold : Fin n → Holding} (hnode : ∀ i, H.Node v a i (hold i))
    (hT : ∀ i ∈ T, hold i = k) (hx : c = .fwdGetS → k = .shared → H.Excused v.trace) :
    wp (H.toL2s ⟨c, a, (H.cfg .home).geometry.cacheLineSize, (H.cfg .home).id, T.image H.l2Id⟩)
      (fun _ s' => ∃ v', H.Sees live v' s' ∧ NodesOnly a v v' ∧
        (∀ i, H.Node v' a i (if i ∈ T then k' else hold i)) ∧
        (∀ i, i ∉ T ∨ k = k' → SameNode a i v v')) H.Stops s := by
  refine .mono (wp_forM _ (fun rest s' => rest.Nodup ∧ ∃ v', H.Sees live v' s' ∧ NodesOnly a v v' ∧
    (∀ i, H.Node v' a i (if i ∈ T ∧ i ∉ rest then k' else hold i)) ∧
    (∀ i, i ∉ T ∨ k = k' → SameNode a i v v')) ?_ ⟨List.nodup_finRange n, v, h, ?_⟩) ?_
  · rintro i rest s₁ ⟨hnodup, v₁, h₁, honly, hnode₁, hsame⟩
    obtain ⟨hi, hrest⟩ := List.nodup_cons.1 hnodup
    have hmem : H.l2Id i ∈ T.image H.l2Id ↔ i ∈ T := by
      rw [Finset.mem_image]
      exact ⟨fun ⟨x, hx, hxi⟩ => H.l2Id_injective hxi ▸ hx, fun hx => ⟨i, hx, rfl⟩⟩
    refine wp_runIf (fun hid => ?_) fun hid => ?_
    · have hiT := hmem.1 hid
      have hnode_i := hnode₁ i
      rw [if_neg (by simp), hT i hiT] at hnode_i
      refine .mono (accessL2Cache_up hf h₁ ha hnode_i (by rwa [honly.trace])) ?_
      rintro - s₂ ⟨v₂, h₂, hnode₂, hlocal, hkeep⟩
      refine ⟨hrest, v₂, h₂, ⟨?_, ?_, ?_⟩, fun x => ?_, fun x hx => ?_⟩
      · rw [hlocal.trace, honly.trace]
      · intro r b hrb
        rw [hlocal.st r b fun hb => by simp [hrb hb], honly.st r b hrb]
      · intro r b hrb
        rw [hlocal.dir r b fun hb => by simp [hrb hb], honly.dir r b hrb]
      · by_cases hxi : x = i
        · subst hxi
          rw [if_pos ⟨hiT, hi⟩]
          exact hnode₂
        · rw [(hlocal.sameNode hxi).node]
          simpa [hxi] using hnode₁ x
      · obtain ⟨hl1, hl2, hdir⟩ := hsame x hx
        by_cases hxi : x = i
        · subst hxi
          rw [hkeep (hx.resolve_left (not_not.2 hiT))]
          exact ⟨hl1, hl2, hdir⟩
        · have hsame₂ := hlocal.sameNode hxi
          exact ⟨hsame₂.l1.trans hl1, hsame₂.l2.trans hl2, hsame₂.dir.trans hdir⟩
    · refine ⟨hrest, v₁, h₁, honly, fun x => ?_, hsame⟩
      have hiT := mt hmem.2 hid
      by_cases hxi : x = i
      · subst hxi
        simpa [hiT] using hnode₁ x
      · simpa [hxi] using hnode₁ x
  · refine ⟨⟨rfl, fun _ _ _ => rfl, fun _ _ _ => rfl⟩, fun i => ?_, fun i _ => ⟨rfl, rfl, rfl⟩⟩
    simpa using hnode i
  · rintro - s' ⟨-, v', h', honly, hnode', hsame⟩
    exact ⟨v', h', honly, by simpa using hnode', hsame⟩

/-- A command of the home to the nodes `T` changes what these nodes hold and leaves the others. -/
theorem send_toL2s {T : Finset (Fin n)} (hne : T.Nonempty) {k k' : Holding} (hf : Forwards c k k')
    (h : H.Sees live v s) (ha : H.IsLine a) {hold : Fin n → Holding}
    (hnode : ∀ i, H.Node v a i (hold i)) (hT : ∀ i ∈ T, hold i = k)
    (hx : c = .fwdGetS → k = .shared → H.Excused v.trace) :
    wp (sendCoherenceTransaction H.toPlatform H.homePorts .home c a (T.image H.l2Id))
      (fun _ s' => ∃ v', H.Sees live v' s' ∧ NodesOnly a v v' ∧
        (∀ i, H.Node v' a i (if i ∈ T then k' else hold i)) ∧
        (∀ i, i ∉ T ∨ k = k' → SameNode a i v v')) H.Stops s := by
  have hhigher : c.toHigher = true := by cases hf <;> rfl
  have hhome : (H.cfg .home).isHome = true := by
    rw [H.isHome_eq]
    rfl
  unfold sendCoherenceTransaction
  dsimp only
  rw [if_pos hhigher, hhome]
  refine .step (wp_runIf_pos rfl (wp_check (.inl ?_) ?_))
  · exact Finset.card_pos.2 (hne.image _)
  · rw [if_pos rfl]
    exact toL2s_spec hf h ha hnode hT hx

end Hierarchy

end Vpsim.Memory
