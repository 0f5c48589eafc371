import Vpsim.Memory.CpuSpec

/-!
# Coherence of the hierarchy

What holds between two CPU accesses of any run from the empty hierarchy: there is a single
writer, the directories are precise, and no written line is lost. The last part and the validity
of the assertions hold as long as the home does not receive certain requests, which it handles
differently from what its assertions and its other branches expect.
-/

namespace Vpsim.Memory

open Vpsim.Lib

namespace Hierarchy

variable {n : ℕ} {H : Hierarchy n} {live : Set (CacheRef n × LineRef × ℕ)} {v : View (CacheRef n)}
  {s : State (CacheRef n)} {a : ℕ} {r : CacheRef n} {x : CoherenceState}

/-- A way of the cache `r` carries the line `a` in the state `x`. -/
def Holds (H : Hierarchy n) (s : State (CacheRef n)) (r : CacheRef n) (a : ℕ) (x : CoherenceState) :
    Prop :=
  ∃ p : LineRef, p.index < (H.cfg r).geometry.nbSets ∧ (s.cache r).Way p ∧
    ((s.cache r).line p).address = a ∧ ((s.cache r).line p).state = x

/-- The line addresses with small tags are told apart by every cache. -/
theorem distinct_isLine (r : CacheRef n) : Distinct (H.cfg r).geometry H.IsLine := by
  intro y z hy hz hindex htag
  rw [Nat.mod_eq_of_lt (hy.tag_lt r), Nat.mod_eq_of_lt (hz.tag_lt r)] at htag
  have haligned {w : ℕ} (hw : H.IsLine w) : 2 ^ (H.cfg r).geometry.offsetBits ∣ w := by
    rw [offsetBits_eq]
    exact hw.aligned
  exact Geometry.eq_of_index_tag (H.interleaved_le r) hy.lt hz.lt (haligned hy) (haligned hz) hindex htag

/-- The view of the empty hierarchy. -/
def emptyView : View (CacheRef n) := ⟨fun _ _ => .invalid, fun _ _ => none, []⟩

/-- The empty hierarchy has the empty view. -/
theorem sees_init : H.Sees ∅ emptyView (.init H.toPlatform) where
  distinct := distinct_isLine
  wf _ := Cache.wf_init
  owns := by simp
  place := by simp
  view_eq := by
    unfold State.view emptyView
    congr 1
    funext r a
    unfold Cache.stateOf
    split
    · rfl
    · rfl

/-- The empty hierarchy satisfies the invariant. -/
theorem inv_empty : H.Inv emptyView where
  precise a := ⟨fun _ => .none, fun i => ⟨rfl, .inl rfl, rfl⟩, .uncached (.inl rfl) fun _ => rfl⟩
  home a :=
    { present := fun h => absurd rfl h
      exclusive := fun _ h => by cases h
      excluded := fun _ _ h => absurd rfl h
      dirty := fun h => h.elim
      strict := fun _ h => by cases h }

/-- The state in which a run ends or stops. -/
def finalState (H : Hierarchy n) (xs : List (CpuAccess n)) : State (CacheRef n) :=
  match H.run xs (.init H.toPlatform) with
  | .ok _ s => s
  | .error _ s => s

/-- How a run ends: `none` if it completes. -/
def outcome (H : Hierarchy n) (xs : List (CpuAccess n)) : Option Stop :=
  match H.run xs (.init H.toPlatform) with
  | .ok _ _ => none
  | .error e _ => some e

/-- A run that completes reaches its final state. -/
theorem reached_finalState {xs : List (CpuAccess n)} (hxs : ∀ x ∈ xs, H.Fits x)
    (hok : H.outcome xs = none) : H.Reached (H.finalState xs) := by
  refine ⟨xs, hxs, ?_⟩
  unfold outcome at hok
  unfold finalState
  cases hrun : H.run xs (.init H.toPlatform) with
  | ok _ s => rfl
  | error e s => simp [hrun] at hok

/-- Every run from the empty hierarchy keeps the invariant. -/
theorem run_spec {xs : List (CpuAccess n)} (hxs : ∀ x ∈ xs, H.Fits x) :
    wp (H.run xs) (fun _ s' => ∃ v', H.Sees ∅ v' s' ∧ H.Inv v') H.Stops (.init H.toPlatform) := by
  have hspec := runOver_spec serves_toHome hxs sees_init ⟨inv_empty.precise, inv_empty.home⟩
  exact hspec.mono fun _ _ ⟨v', h', hinv⟩ => ⟨v', h', hinv.precise, hinv.home⟩

/-- The invariant holds between two accesses. -/
theorem Reached.inv (h : H.Reached s) : ∃ v, H.Sees ∅ v s ∧ H.Inv v := by
  obtain ⟨xs, hxs, hrun⟩ := h
  exact (run_spec hxs).of_ok hrun

/-- A cache holds a line in the state of its view. -/
theorem st_of_holds (h : H.Sees live v s) (hx : x ≠ .invalid) (hholds : H.Holds s r a x) :
    v.st r a = x :=
  (h.st_eq r a).symm.trans (((h.wf r).exists_line_iff hx).1 hholds)

/-- A state of the view is the state of some way. -/
theorem holds_of_st (h : H.Sees live v s) (hx : x ≠ .invalid) (hst : v.st r a = x) :
    H.Holds s r a x :=
  ((h.wf r).exists_line_iff hx).2 ((h.st_eq r a).trans hst)

/-! ## A small hierarchy -/

/-- A cache with one set of 64-byte lines. -/
def oneSet (ways id : ℕ) (hways : 0 < ways) (isHome : Bool) (higher lower : CacheInclusionPolicy) :
    CacheConfig where
  geometry := ⟨ways * 64, 64, ways, 1⟩
  accepted := ⟨by simp, hways, by simp [Geometry.nbLines]⟩
  isHome := isHome
  id := id
  inclusionOfHigher := higher
  inclusionOfLower := lower

/-- Two nodes, whose caches have two ways, under a home of one line with the inclusion policy
`higher`. -/
def twoNodes (higher : CacheInclusionPolicy) (checks : Bool) : Hierarchy 2 where
  cfg
    | .l1 j => oneSet 2 (10 + j) Nat.two_pos false .nine .nine
    | .l2 j => oneSet 2 (20 + j) Nat.two_pos false .nine higher
    | .home => oneSet 1 30 Nat.one_pos true higher .nine
  checks := checks
  lineBits := 6
  lineSize_eq r := by cases r <;> rfl
  interleaved_le r := by cases r <;> exact Nat.le_refl 1
  writeBack r := by cases r <;> rfl
  writeAllocate r := by cases r <;> rfl
  isHome_eq r := by cases r <;> rfl
  l2Id_injective i j hij := Fin.ext (Nat.add_left_cancel hij)

/-- One byte accesses of lines below 4 GiB are accesses of `twoNodes`. -/
theorem fits_twoNodes {higher : CacheInclusionPolicy} {checks : Bool} {x : CpuAccess 2}
    (hsize : x.size = 1) (haddr : x.addr < 2 ^ 32) : (twoNodes higher checks).Fits x where
  size_lt := by omega
  addr_lt := by omega
  line k hk := by
    obtain rfl : k = 0 := by omega
    have hle : (twoNodes higher checks).lineOf (add64 x.addr 0) ≤ x.addr :=
      (Nat.sub_le _ _).trans (Nat.mod_le _ _)
    refine ⟨by unfold addressBits; omega, Nat.dvd_sub_mod _, fun r => ?_⟩
    calc ((twoNodes higher checks).cfg r).geometry.tag ((twoNodes higher checks).lineOf (add64 x.addr 0))
        ≤ (twoNodes higher checks).lineOf (add64 x.addr 0) := Geometry.tag_le _
      _ < wordSize := lt_of_le_of_lt hle haddr

/-- The accesses of a node that writes a line and of the other one that reads it. -/
def writeThenRead : List (CpuAccess 2) := [⟨0, true, 1, 0, 0, 0⟩, ⟨1, false, 1, 0, 0, 0⟩]

/-- They are accesses of `twoNodes`. -/
theorem fits_writeThenRead {higher : CacheInclusionPolicy} {checks : Bool} :
    ∀ x ∈ writeThenRead, (twoNodes higher checks).Fits x := by
  simp [writeThenRead, fits_twoNodes]

/-- Reads of a node, which make it drop the second line. -/
def readFour : List (CpuAccess 2) :=
  [⟨0, false, 1, 0, 0, 0⟩, ⟨0, false, 1, 64, 0, 0⟩, ⟨0, false, 1, 128, 0, 0⟩, ⟨0, false, 1, 192, 0, 0⟩]

/-! ## Single writer -/

/-- If some L1 has a line modified, no other L1 has it in another state than invalid. -/
theorem single_writer (hs : H.Reached s) {i j : Fin n} (hij : j ≠ i)
    (hi : H.Holds s (.l1 i) a .modified) (hj : H.Holds s (.l1 j) a x) : x = .invalid := by
  by_contra hx
  obtain ⟨v, h, hinv⟩ := hs.inv
  obtain ⟨hold, hnode, hhome⟩ := hinv.precise a
  have hki := ((hnode i).of_l1_modified (st_of_holds h (by simp) hi)).1
  have hkj : hold j = .none := by
    cases hhome with
    | uncached _ hhold => rw [hhold] at hki; cases hki
    | shared T _ _ hhold => rw [hhold] at hki; split at hki <;> cases hki
    | owned o _ hhold =>
      have hio : i = o := by
        by_contra hne
        simp [hhold, hne] at hki
      rw [hhold, if_neg (hio ▸ hij)]
  have hnone := hnode j
  rw [hkj] at hnone
  exact hx ((st_of_holds h hx hj).symm.trans hnone.2.2)

/-- The CPU of one node writes a line that the other node has read. -/
theorem single_writer_twoNodes : ∃ s, (twoNodes .nine true).Reached s ∧
    (twoNodes .nine true).Holds s (.l1 0) 0 .modified ∧
    ∀ x, (twoNodes .nine true).Holds s (.l1 1) 0 x → x = .invalid := by
  have hfits : ∀ x ∈ ([⟨1, false, 1, 0, 0, 0⟩, ⟨0, true, 1, 0, 0, 0⟩] : List (CpuAccess 2)),
      (twoNodes .nine true).Fits x := by
    simp [fits_twoNodes]
  have hreached := reached_finalState hfits (by decide +kernel)
  have hholds : (twoNodes .nine true).Holds ((twoNodes .nine true).finalState
      [⟨1, false, 1, 0, 0, 0⟩, ⟨0, true, 1, 0, 0, 0⟩]) (.l1 0) 0 .modified :=
    ⟨⟨0, 0⟩, by decide +kernel, by unfold Cache.Way; decide +kernel, by decide +kernel, by decide +kernel⟩
  exact ⟨_, hreached, hholds, fun x hx => single_writer hreached (by decide) hholds hx⟩

/-! ## Directory precision -/

/-- The L2 cache `j` is a holder of `a`: it has the line, or an L1 above it does. -/
def Holder (H : Hierarchy n) (s : State (CacheRef n)) (a : ℕ) (j : Fin n) : Prop :=
  (∃ x, x ≠ .invalid ∧ H.Holds s (.l2 j) a x) ∨
    ∃ e, (s.cache (.l2 j)).directory a = some e ∧ e.state ≠ .invalid

/-- What the entry of the home for `a` says about the L2 caches. -/
def HomePrecise (H : Hierarchy n) (s : State (CacheRef n)) (a : ℕ) : Prop :=
  match (s.cache .home).directory a with
  | none => ∀ j, ¬ H.Holder s a j
  | some e =>
    match e.state with
    | .invalid => ∀ j, ¬ H.Holder s a j
    | .shared =>
      e.sharers.Nonempty ∧ e.owner = nullIdx ∧
        (∀ id, id ∈ e.sharers ↔ ∃ j, H.l2Id j = id ∧ H.Holder s a j) ∧
        ∀ j, ¬ H.Holds s (.l1 j) a .modified
    | .modified =>
      e.sharers = ∅ ∧ ∃ o, H.l2Id o = e.owner ∧ (∀ j, H.Holder s a j ↔ j = o) ∧
        (H.Holds s (.l2 o) a .modified ∨
          ∃ d, (s.cache (.l2 o)).directory a = some d ∧ d.state = .modified)

/-- What the entry of the L2 cache `j` for `a` says about its L1. -/
def L2Precise (H : Hierarchy n) (s : State (CacheRef n)) (a : ℕ) (j : Fin n) : Prop :=
  match (s.cache (.l2 j)).directory a with
  | none => ∀ x, H.Holds s (.l1 j) a x → x = .invalid
  | some e =>
    match e.state with
    | .invalid => ∀ x, H.Holds s (.l1 j) a x → x = .invalid
    | .shared => e.sharers = {H.l1Id j} ∧ e.owner = nullIdx ∧ H.Holds s (.l1 j) a .shared
    | .modified => e.sharers = ∅ ∧ e.owner = H.l1Id j ∧ H.Holds s (.l1 j) a .modified

/-- A node is a holder unless it holds nothing. -/
theorem holder_iff (h : H.Sees live v s) {j : Fin n} {k : Holding} (hnode : H.Node v a j k) :
    H.Holder s a j ↔ k ≠ .none := by
  have hst : (∃ x, x ≠ .invalid ∧ H.Holds s (.l2 j) a x) ↔ v.st (.l2 j) a ≠ .invalid := by
    constructor
    · rintro ⟨x, hx, hholds⟩
      rwa [st_of_holds h hx hholds]
    · intro hne
      exact ⟨_, hne, holds_of_st h hne rfl⟩
  unfold Holder
  rw [hst, h.dir_eq]
  cases k with
  | none =>
    obtain ⟨hl, hd, -⟩ := hnode
    rcases hd with hd | hd <;> simp [hl, hd, DirectoryEntry.uncached]
  | shared =>
    rcases hnode with ⟨hl, hd, -⟩ | ⟨-, hd, -⟩
    · simp [hl]
    · simp [hd, DirectoryEntry.sharedBy]
  | modified =>
    rcases hnode with ⟨hl, -, -⟩ | ⟨hl, -, -⟩ | ⟨-, hd, -⟩
    · simp [hl]
    · simp [hl]
    · simp [hd, DirectoryEntry.ownedBy]

/-- The home's entry is precise. -/
theorem Inv.homePrecise (h : H.Sees live v s) (hinv : H.Inv v) (a : ℕ) : H.HomePrecise s a := by
  obtain ⟨hold, hnode, hhome⟩ := hinv.precise a
  have hholder (j : Fin n) := holder_iff h (hnode j)
  unfold HomePrecise
  rw [h.dir_eq]
  cases hhome with
  | uncached hD hhold =>
    have hno (j : Fin n) : ¬ H.Holder s a j := by rw [hholder, hhold, not_not]
    rcases hD with hD | hD
    · rw [hD]
      exact hno
    · rw [hD]
      exact hno
  | shared T hT hD hhold =>
    rw [hD]
    refine ⟨hT.image _, rfl, fun id => ?_, fun j hM => ?_⟩
    · simp only [DirectoryEntry.sharedBy, Finset.mem_image, hholder, hhold]
      constructor
      · rintro ⟨j, hj, rfl⟩
        exact ⟨j, rfl, by simp [hj]⟩
      · rintro ⟨j, rfl, hj⟩
        exact ⟨j, by_contra fun hjT => hj (if_neg hjT), rfl⟩
    · have hk := ((hnode j).of_l1_modified (st_of_holds h (by simp) hM)).1
      rw [hhold] at hk
      split at hk <;> cases hk
  | owned o hD hhold =>
    rw [hD]
    refine ⟨rfl, o, rfl, fun j => ?_, ?_⟩
    · rw [hholder, hhold]
      by_cases hj : j = o <;> simp [hj]
    · have ho := hnode o
      rw [hhold, if_pos rfl] at ho
      rcases ho with ⟨hl, -, -⟩ | ⟨hl, -, -⟩ | ⟨-, hd, -⟩
      · exact .inl (holds_of_st h (by simp) hl)
      · exact .inl (holds_of_st h (by simp) hl)
      · exact .inr ⟨_, by rw [h.dir_eq, hd], rfl⟩

/-- The entries of the L2 caches are precise. -/
theorem Inv.l2Precise (h : H.Sees live v s) (hinv : H.Inv v) (a : ℕ) (j : Fin n) :
    H.L2Precise s a j := by
  obtain ⟨hold, hnode, -⟩ := hinv.precise a
  unfold L2Precise
  rw [h.dir_eq]
  cases hx : v.st (.l1 j) a with
  | invalid =>
    have hno (x) (hholds : H.Holds s (.l1 j) a x) : x = .invalid := by
      by_contra hne
      exact hne ((st_of_holds h hne hholds).symm.trans hx)
    rcases (hnode j).of_l1_invalid hx with ⟨-, -, hd | hd⟩ | ⟨-, hd, -⟩ <;> rw [hd] <;> exact hno
  | shared =>
    rw [((hnode j).of_l1_shared hx).1]
    exact ⟨rfl, rfl, holds_of_st h (by simp) hx⟩
  | modified =>
    rw [((hnode j).of_l1_modified hx).2.2]
    exact ⟨rfl, rfl, holds_of_st h (by simp) hx⟩

/-- In every state that a run reaches after some of its accesses the directories of the home and of
the L2 caches are precise for every line, whatever the policies of the caches. Without assertions
the run completes; only a cache with the FIFO policy, whose victims the code leaves unset, can stop
it. -/
theorem directories_precise (hchecks : H.checks = false) {xs : List (CpuAccess n)}
    (hxs : ∀ x ∈ xs, H.Fits x) :
    (∀ done, done <+: xs → ∀ s, H.run done (.init H.toPlatform) = .ok () s →
      ∀ a, H.HomePrecise s a ∧ ∀ j, H.L2Precise s a j) ∧
    ((∃ s, H.run xs (.init H.toPlatform) = .ok () s) ∨ ∃ r, (H.cfg r).replPolicy = .fifo) := by
  refine ⟨fun done hdone s hrun a => ?_, ?_⟩
  · have hfits : ∀ x ∈ done, H.Fits x := fun x hx => hxs x (hdone.subset hx)
    obtain ⟨v, h, hinv⟩ := (run_spec hfits).of_ok hrun
    exact ⟨hinv.homePrecise h a, hinv.l2Precise h a⟩
  · cases hrun : H.run xs (.init H.toPlatform) with
    | ok _ s => exact .inl ⟨s, rfl⟩
    | error e s =>
      have hstops := (run_spec hxs).of_error hrun
      cases e with
      | undefined => exact .inr hstops
      | assertion => exact absurd hstops.1 (by simp [hchecks])

/-- A read, a write of the line by the other node, and an eviction from the home. -/
theorem directories_precise_twoNodes :
    (∀ done, done <+: [⟨1, false, 1, 0, 0, 0⟩, ⟨0, true, 1, 0, 0, 0⟩, ⟨0, false, 1, 64, 0, 0⟩] →
      ∀ s, (twoNodes .nine false).run done (.init (twoNodes .nine false).toPlatform) = .ok () s →
        ∀ a, (twoNodes .nine false).HomePrecise s a ∧ ∀ j, (twoNodes .nine false).L2Precise s a j) ∧
    ((∃ s, (twoNodes .nine false).run
        [⟨1, false, 1, 0, 0, 0⟩, ⟨0, true, 1, 0, 0, 0⟩, ⟨0, false, 1, 64, 0, 0⟩]
        (.init (twoNodes .nine false).toPlatform) = .ok () s) ∨
      ∃ r, ((twoNodes .nine false).cfg r).replPolicy = .fifo) :=
  directories_precise rfl (by simp [fits_twoNodes])

/-! ## Assertions -/

/-- A run without an unforeseen request fails no assertion, and it completes unless a cache has
the FIFO policy. -/
theorem assertions_hold (hstrict : H.Strict) {xs : List (CpuAccess n)} (hxs : ∀ x ∈ xs, H.Fits x)
    (hforeseen : ∀ e ∈ (H.finalState xs).trace, ¬ e.Unforeseen) :
    (∀ s, H.run xs (.init H.toPlatform) ≠ .error .assertion s) ∧
      ((∃ s, H.run xs (.init H.toPlatform) = .ok () s) ∨ ∃ r, (H.cfg r).replPolicy = .fifo) := by
  have hspec := run_spec hxs
  cases hrun : H.run xs (.init H.toPlatform) with
  | ok _ s => exact ⟨by simp, .inl ⟨s, rfl⟩⟩
  | error e s =>
    have hstops := hspec.of_error hrun
    cases e with
    | undefined => exact ⟨by simp, .inr hstops⟩
    | assertion =>
      obtain ⟨ev, hev, hun⟩ := hstops.2 hstrict
      rw [finalState, hrun] at hforeseen
      exact absurd hun (hforeseen ev hev)

/-- The ids of `twoNodes` are not null. -/
theorem strict_twoNodes : (twoNodes .nine true).Strict where
  not_exclusive := by decide
  id_ne r := by
    cases r with
    | home => decide
    | l1 j => revert j; decide
    | l2 j => revert j; decide

/-- A write, and a read of the line by the other node, violate no assertion. -/
theorem assertions_hold_twoNodes :
    (∀ s, (twoNodes .nine true).run writeThenRead (.init (twoNodes .nine true).toPlatform) ≠
      .error .assertion s) ∧
    ((∃ s, (twoNodes .nine true).run writeThenRead (.init (twoNodes .nine true).toPlatform) =
      .ok () s) ∨ ∃ r, ((twoNodes .nine true).cfg r).replPolicy = .fifo) := by
  have htrace : ((twoNodes .nine true).finalState writeThenRead).trace =
      [.homeRequest .getS 21 0 .shared (some (.ownedBy 20)), .cpuWrite 0, .forwardReadData 0,
        .homeRequest .getM 20 0 .invalid none] := by
    decide +kernel
  refine assertions_hold strict_twoNodes fits_writeThenRead ?_
  rw [htrace]
  simp [Event.Unforeseen]

/-- The home replaces a line that one node shares; the read of the line by the other node then makes
the sharer fail the assertion that it owns the line. -/
theorem assertion_fails_twoNodes : ¬ ∀ (n : ℕ) (H : Hierarchy n), H.Strict →
    ∀ xs : List (CpuAccess n), (∀ x ∈ xs, H.Fits x) →
      ∀ s, H.run xs (.init H.toPlatform) ≠ .error .assertion s := by
  intro hclaim
  have hfails : (twoNodes .nine true).outcome
      [⟨0, false, 1, 0, 0, 0⟩, ⟨0, false, 1, 64, 0, 0⟩, ⟨1, false, 1, 0, 0, 0⟩] = some .assertion := by
    decide +kernel
  have hnever := hclaim 2 (twoNodes .nine true) strict_twoNodes
    [⟨0, false, 1, 0, 0, 0⟩, ⟨0, false, 1, 64, 0, 0⟩, ⟨1, false, 1, 0, 0, 0⟩] (by simp [fits_twoNodes])
  unfold outcome at hfails
  split at hfails
  · cases hfails
  · rename_i e s hrun
    cases hfails
    exact hnever s hrun

/-! ## No lost write -/

/-- A line that a CPU has written since the home last wrote it to the memory is modified in some
cache, unless an exclusive home has served a read of the line from its owner without allocating. -/
theorem dirty_line_held (hs : H.Reached s) (hd : Dirty a s.trace)
    (hm : H.Exclusive → ∀ e ∈ s.trace, ¬ e.OwnedMiss a) : ∃ r, H.Holds s r a .modified := by
  obtain ⟨v, h, hinv⟩ := hs.inv
  rw [h.trace_eq] at hd hm
  rcases (hinv.home a).dirty hd hm with ⟨o, ho⟩ | hM
  · obtain ⟨hold, hnode, hhome⟩ := hinv.precise a
    rw [ho] at hhome
    cases hhome with
    | uncached hD _ => simp [DirectoryEntry.uncached, DirectoryEntry.ownedBy] at hD
    | shared T _ hD _ => simp [DirectoryEntry.sharedBy, DirectoryEntry.ownedBy] at hD
    | owned j _ hhold =>
      have hj := hnode j
      rw [hhold, if_pos rfl] at hj
      rcases hj with ⟨hl, -, -⟩ | ⟨hl, -, -⟩ | ⟨-, -, hx⟩
      · exact ⟨_, holds_of_st h (by simp) hl⟩
      · exact ⟨_, holds_of_st h (by simp) hl⟩
      · exact ⟨_, holds_of_st h (by simp) hx⟩
  · exact ⟨_, holds_of_st h (by simp) hM⟩

/-- A line that one node has written and the other has read, under a home that is not exclusive. -/
theorem dirty_line_held_twoNodes : ∃ s, (twoNodes .nine true).Reached s ∧ Dirty 0 s.trace ∧
    ∃ r, (twoNodes .nine true).Holds s r 0 .modified := by
  have hreached : (twoNodes .nine true).Reached ((twoNodes .nine true).finalState writeThenRead) :=
    reached_finalState fits_writeThenRead (by decide +kernel)
  have htrace : ((twoNodes .nine true).finalState writeThenRead).trace =
      [.homeRequest .getS 21 0 .shared (some (.ownedBy 20)), .cpuWrite 0, .forwardReadData 0,
        .homeRequest .getM 20 0 .invalid none] := by
    decide +kernel
  generalize (twoNodes .nine true).finalState writeThenRead = s at hreached htrace
  have hdirty : Dirty 0 s.trace := by
    rw [htrace]
    exact .inl rfl
  exact ⟨s, hreached, hdirty, dirty_line_held hreached hdirty fun hx => absurd hx (by decide)⟩

/-- An exclusive home lets the owner of a written line share it with a reader; then no cache has
the line modified and the memory has not got it. -/
theorem dirty_line_lost_twoNodes : ¬ ∀ (n : ℕ) (H : Hierarchy n) (s : State (CacheRef n)), H.Reached s →
    ∀ a, Dirty a s.trace → ∃ r, H.Holds s r a .modified := by
  intro hclaim
  have hreached : (twoNodes .exclusive true).Reached
      ((twoNodes .exclusive true).finalState writeThenRead) :=
    reached_finalState fits_writeThenRead (by decide +kernel)
  have htrace : ((twoNodes .exclusive true).finalState writeThenRead).trace =
      [.homeRequest .getS 21 0 .invalid (some (.ownedBy 20)), .cpuWrite 0, .forwardReadData 0,
        .homeRequest .getM 20 0 .invalid none] := by
    decide +kernel
  have hclean : ∀ r, (((twoNodes .exclusive true).finalState writeThenRead).cache r).stateOf
      ((twoNodes .exclusive true).cfg r).geometry 0 ≠ .modified := by
    intro r
    cases r with
    | home => decide +kernel
    | l1 j => revert j; decide +kernel
    | l2 j => revert j; decide +kernel
  generalize (twoNodes .exclusive true).finalState writeThenRead = s at hreached htrace hclean
  obtain ⟨r, hholds⟩ := hclaim 2 _ s hreached 0 (by rw [htrace]; exact .inl rfl)
  obtain ⟨v, h, -⟩ := hreached.inv
  exact hclean r ((h.st_eq r 0).trans (st_of_holds h (by simp) hholds))

end Hierarchy

end Vpsim.Memory
