import Vpsim.Core.Settling
import Vpsim.Core.Fragmentation

/-!
# What a refresh trims

Where no module has modifiers, a refresh keeps the own parameters of a module at the addresses of the memories
that it can reach, and loses the others. The imports and exports of settled modules follow from what they keep.
-/

namespace Vpsim.Core

open Vpsim.Lib

/-- The two parameters are of one kind, and a set keeps them in one container. -/
def ModuleParameter.SameKind {D R : Type} : ModuleParameter D R → ModuleParameter D R → Prop
  | .blockingTLMEnabled _, .blockingTLMEnabled _ => True
  | .approximateDelay _, .approximateDelay _ => True
  | .approximateTraversalRate _, .approximateTraversalRate _ => True
  | _, _ => False

/-! ## The parameters of an address -/

namespace ParameterSet

variable {D R : Type} {ps that : ParameterSet D R} {a : ℕ} {p q : ModuleParameter D R}

/-- The set has this parameter at the address. -/
def Has (ps : ParameterSet D R) (a : ℕ) : ModuleParameter D R → Prop
  | .blockingTLMEnabled v => valueAt ps.blockingTLMEnabledParameter a = some v
  | .approximateDelay d => valueAt ps.approximateDelayParameter a = some d
  | .approximateTraversalRate r => valueAt ps.approximateTraversalRateParameter a = some r

theorem not_has_empty : ¬ (empty : ParameterSet D R).Has a p := by
  cases p <;> exact nofun

theorem defines_iff : ps.Defines a ↔ ∃ p, ps.Has a p := by
  unfold Defines
  constructor
  · rintro (h | h | h)
    · obtain ⟨v, hv⟩ := Option.ne_none_iff_exists'.mp h
      exact ⟨.blockingTLMEnabled v, hv⟩
    · obtain ⟨d, hd⟩ := Option.ne_none_iff_exists'.mp h
      exact ⟨.approximateDelay d, hd⟩
    · obtain ⟨r, hr⟩ := Option.ne_none_iff_exists'.mp h
      exact ⟨.approximateTraversalRate r, hr⟩
  · rintro ⟨p, hp⟩
    cases p with
    | blockingTLMEnabled v => exact .inl (Option.ne_none_iff_exists'.mpr ⟨v, hp⟩)
    | approximateDelay d => exact .inr (.inl (Option.ne_none_iff_exists'.mpr ⟨d, hp⟩))
    | approximateTraversalRate r => exact .inr (.inr (Option.ne_none_iff_exists'.mpr ⟨r, hp⟩))

/-- A parameter whose range is free of parameters of its kind is added. -/
theorem has_setParameter (h : Sound ps) {as : AddrSpace} (has : as.WellFormed)
    (hfree : ∀ q, q.SameKind p → ps.Has a q → a ∉ as) :
    (ps.setParameter as p).Has a q ↔ ps.Has a q ∨ a ∈ as ∧ q = p := by
  -- what happens in the container of `p`
  have hsame {V : Type} {pc : ParamContainer V} (hpc : pc.Sound) (v w : V) (hnone : a ∈ as → valueAt pc a = none) :
      valueAt (ParamContainer.setParameterHelper (fun _ new => new) pc as v) a = some w ↔
        valueAt pc a = some w ∨ a ∈ as ∧ w = v := by
    rw [ParamContainer.valueAt_setNew hpc has]
    split_ifs with ha
    · simp [hnone ha, ha, eq_comm]
    · simp [ha]
  cases p with
  | blockingTLMEnabled v =>
    cases q with
    | blockingTLMEnabled w =>
      refine (hsame h.blocking v w fun ha => ?_).trans (by simp [Has])
      exact Option.eq_none_iff_forall_ne_some.mpr fun u hu => hfree (.blockingTLMEnabled u) trivial hu ha
    | approximateDelay d => exact (or_iff_left fun hq => by cases hq.2).symm
    | approximateTraversalRate r => exact (or_iff_left fun hq => by cases hq.2).symm
  | approximateDelay v =>
    cases q with
    | blockingTLMEnabled b => exact (or_iff_left fun hq => by cases hq.2).symm
    | approximateDelay w =>
      refine (hsame h.delay v w fun ha => ?_).trans (by simp [Has])
      exact Option.eq_none_iff_forall_ne_some.mpr fun u hu => hfree (.approximateDelay u) trivial hu ha
    | approximateTraversalRate r => exact (or_iff_left fun hq => by cases hq.2).symm
  | approximateTraversalRate v =>
    cases q with
    | blockingTLMEnabled b => exact (or_iff_left fun hq => by cases hq.2).symm
    | approximateDelay d => exact (or_iff_left fun hq => by cases hq.2).symm
    | approximateTraversalRate w =>
      refine (hsame h.rate v w fun ha => ?_).trans (by simp [Has])
      exact Option.eq_none_iff_forall_ne_some.mpr fun u hu => hfree (.approximateTraversalRate u) trivial hu ha

variable [LinearOrder D] [DecidableEq R]

/-- `trim` keeps the parameters on the restriction. -/
theorem has_trim (h : Sound ps) {restriction : SpaceSet} (hwf : ∀ s ∈ restriction.members, s.WellFormed) :
    (ps.trim restriction).Has a p ↔ ps.Has a p ∧ ∃ s ∈ restriction.members, a ∈ s := by
  obtain ⟨hblocking, hdelay, hrate⟩ := restrictedTo_trim h hwf a
  cases p with
  | blockingTLMEnabled v => rw [Has, Has, hblocking, Option.ite_none_right_eq_some, and_comm]
  | approximateDelay d => rw [Has, Has, hdelay, Option.ite_none_right_eq_some, and_comm]
  | approximateTraversalRate r => rw [Has, Has, hrate, Option.ite_none_right_eq_some, and_comm]

theorem compact_trim (ps : ParameterSet D R) (restriction : SpaceSet) : (ps.trim restriction).Compact :=
  ⟨ParamContainer.compact_defrag _, ParamContainer.compact_defrag _, ParamContainer.compact_defrag _⟩

theorem compact_empty : (empty : ParameterSet D R).Compact := ⟨rfl, rfl, rfl⟩

/-- Compact sets with the same parameters at every address are equal. -/
theorem Compact.ext (h : ps.Compact) (h' : that.Compact) (hs : ps.Sound) (hs' : that.Sound)
    (heq : ∀ a p, ps.Has a p ↔ that.Has a p) : ps = that := by
  have hblocking := h.blocking.ext h'.blocking hs.blocking hs'.blocking fun a =>
    Option.ext fun v => heq a (.blockingTLMEnabled v)
  have hdelay := h.delay.ext h'.delay hs.delay hs'.delay fun a => Option.ext fun d => heq a (.approximateDelay d)
  have hrate := h.rate.ext h'.rate hs.rate hs'.rate fun a =>
    Option.ext fun r => heq a (.approximateTraversalRate r)
  obtain ⟨blocking, delay, rate⟩ := ps
  rw [ParameterSet.mk.injEq]
  exact ⟨hblocking, hdelay, hrate⟩

end ParameterSet

/-! ## Modules without modifiers -/

namespace Graph

open ParameterSet ParameterSetModifier

variable {M D R : Type} {g t t' : Graph M D R} {m x : M} {next : List M}

/-- The module can reach a memory that has this address. -/
def Provides (g : Graph M D R) (m : M) (a : ℕ) : Prop :=
  ∃ t, Reaches g.succs m t ∧ (g t).moduleType = .memoryMapped ∧ a ∈ (g t).ownAddrSpace

/-- No module can reach two different spaces with an address that it has parameters for. -/
def Unambiguous (g : Graph M D R) : Prop :=
  ∀ m a p, (g m).intrinsecParameters.Has a p → ∀ s t, Reaches g.succs m s → Reaches g.succs m t →
    (g s).moduleType = .memoryMapped → (g t).moduleType = .memoryMapped →
    a ∈ (g s).ownAddrSpace → a ∈ (g t).ownAddrSpace → (g s).ownAddrSpace = (g t).ownAddrSpace

/-- Without modifiers a space arrives as it is. -/
theorem Arrives.of_no_modifiers (hmodifier : ∀ m, (g m).modifier = []) {t : M} {k : AddrSpace}
    (h : g.Arrives t m k) :
    Reaches g.succs m t ∧ (g t).moduleType = .memoryMapped ∧ (g t).ownAddrSpace = k := by
  induction h with
  | own hmm =>
    rw [hmodifier, total, AddrSpace.moved_zero]
    exact ⟨.refl, hmm, rfl⟩
  | through hs _ ih =>
    rw [hmodifier, total, AddrSpace.moved_zero]
    exact ⟨.head hs ih.1, ih.2⟩

/-- A memory that can be reached is reached along a first path. -/
theorem exists_firstArrives [Finite M] (ha : g.Acyclic) {t : M} (hmm : (g t).moduleType = .memoryMapped)
    (h : Reaches g.succs m t) : ∃ k, g.FirstArrives t m k := by
  classical
  induction m using ha.wellFounded.induction with
  | _ m ih =>
    rcases Relation.ReflTransGen.cases_head h with rfl | ⟨s, hs, hst⟩
    · exact ⟨_, .own hmm⟩
    · have hsome : ((g m).successors.find? fun r => decide (Reaches g.succs r t)).isSome :=
        List.find?_isSome.mpr ⟨s, hs, decide_eq_true hst⟩
      obtain ⟨r, hr⟩ := Option.isSome_iff_exists.mp hsome
      obtain ⟨hrt, before, after, hsplit, hbefore⟩ := List.find?_eq_some_iff_append.mp hr
      have hmem : r ∈ (g m).successors := by
        rw [hsplit]
        simp
      obtain ⟨k, hk⟩ := ih r (.single hmem) (of_decide_eq_true hrt)
      exact ⟨_, .through hsplit (fun x hx => by simpa using hbefore x hx) hk⟩

/-- In an acyclic graph the connections, the own parameters and the modifiers determine the imports and exports
of settled modules. -/
theorem AllSettled.unique [Finite M] [LinearOrder D] [Add D] [HMul D R D] {g' : Graph M D R} (h : g.AllSettled)
    (h' : g'.AllSettled) (hr : g.Ranged) (hr' : g'.Ranged) (ha : g.Acyclic)
    (hports : ∀ m, (g m).ports.map OutPort.successor = (g' m).ports.map OutPort.successor)
    (hown : ∀ m, (g m).intrinsecParameters = (g' m).intrinsecParameters)
    (hmodifier : ∀ m, (g m).modifier = (g' m).modifier) (m : M) :
    (g m).ports = (g' m).ports ∧ (g m).exportedParameters = (g' m).exportedParameters := by
  induction m using ha.wellFounded.induction with
  | _ m ih =>
    have hsame : (g m).ports = (g' m).ports := by
      have hlength := congrArg List.length (hports m)
      rw [List.length_map, List.length_map] at hlength
      refine List.ext_getElem hlength fun i hi hi' => ?_
      have hmem := List.getElem_mem hi
      have hmem' := List.getElem_mem hi'
      have hsuccessor : (g m).ports[i].successor = (g' m).ports[i].successor := by
        have hget := congrArg (fun l => l[i]?) (hports m)
        simpa [hi, hi'] using hget
      have heffective : (g m).ports[i].effectiveParameters = (g' m).ports[i].effectiveParameters := by
        cases hs : (g m).ports[i].successor with
        | none =>
          rw [(hr m).free _ hmem hs, (hr' m).free _ hmem' (hsuccessor ▸ hs)]
        | some x =>
          rw [(h m).effective _ hmem x hs, (h' m).effective _ hmem' x (hsuccessor ▸ hs)]
          exact (ih x (.single (mem_successors.mpr ⟨_, hmem, hs⟩))).2
      cases hp : (g m).ports[i]
      cases hp' : (g' m).ports[i]
      rw [hp, hp'] at hsuccessor heffective
      rw [OutPort.mk.injEq]
      exact ⟨hsuccessor, heffective⟩
    refine ⟨hsame, ?_⟩
    have hexport := (h m).exported
    have hexport' := (h' m).exported
    unfold VpsimModule.exportOf at hexport hexport'
    rw [hsame, hown, hmodifier, hexport'] at hexport
    exact (Except.ok.inj hexport).symm

variable [DecidableEq M] [Fintype M]

/-- Without modifiers the allowed spaces are those of the memories that can be reached. -/
theorem exists_mem_getAllowedSpaces (ha : g.Acyclic) (hown : ∀ m, (g m).ownAddrSpace.WellFormed)
    (hmodifier : ∀ m, (g m).modifier = []) (m : M) : ∃ allowed, getAllowedSpaces g m = .ok allowed ∧
      ∀ k, k ∈ allowed.members ↔
        ∃ t, Reaches g.succs m t ∧ (g t).moduleType = .memoryMapped ∧ (g t).ownAddrSpace = k := by
  have hover : g.NoOverflow := by
    refine ⟨fun m => (hown m).has64Bits, fun m k hk => ?_⟩
    have h64 : k.Has64Bits := by
      rcases hk with ⟨-, rfl⟩ | ⟨s, -, t, hk⟩
      · exact (hown m).has64Bits
      · exact (hk.of_no_modifiers hmodifier).2.2 ▸ (hown t).has64Bits
    rw [hmodifier]
    exact h64.within_zero
  obtain ⟨allowed, hallowed, hmem⟩ := exists_getAllowedSpaces ha hover m
  refine ⟨allowed, hallowed, fun k => (hmem k).trans ⟨?_, ?_⟩⟩
  · rintro ⟨t, hk⟩
    exact ⟨t, hk.arrives.of_no_modifiers hmodifier⟩
  · rintro ⟨t, hmt, hmm, rfl⟩
    obtain ⟨k, hk⟩ := exists_firstArrives ha hmm hmt
    exact ⟨t, (hk.arrives.of_no_modifiers hmodifier).2.2 ▸ hk⟩

/-! ### What a refresh trims -/

/-- What holds while a call on `m` refreshes the graph `g`, in which no module has modifiers: own parameters
are lost only where their module can reach no memory with the address. -/
structure Trimming [LinearOrder D] [DecidableEq R] (g : Graph M D R) (m : M) (t : Graph M D R) : Prop
    extends During g m t where
  ports : ∀ j, (t j).ports.map OutPort.successor = (g j).ports.map OutPort.successor
  sound : ∀ j, (t j).intrinsecParameters.Sound
  old : ∀ {j a p}, (t j).intrinsecParameters.Has a p → (g j).intrinsecParameters.Has a p
  kept : ∀ {j a p}, (g j).intrinsecParameters.Has a p → g.Provides j a → (t j).intrinsecParameters.Has a p

/-- The own parameters of the module have been trimmed to the memories that it can reach in `g`. -/
structure Trimmed [LinearOrder D] [DecidableEq R] (g : Graph M D R) (j : M) (t : Graph M D R) : Prop where
  compact : (t j).intrinsecParameters.Compact
  provided : ∀ {a p}, (t j).intrinsecParameters.Has a p → g.Provides j a

section

variable [LinearOrder D] [DecidableEq R]

theorem Trimming.start (hr : g.Ranged) (hw : g.Wired) (hsound : ∀ j, (g j).intrinsecParameters.Sound) (m : M) :
    Trimming g m (clearPredecessors g m) := by
  have hsame (j : M) : (clearPredecessors g m j).intrinsecParameters = (g j).intrinsecParameters := by
    obtain ⟨exported, hj⟩ := clearPredecessors_apply g m j
    rw [hj]
  refine ⟨.start hr hw m, fun j => ?_, fun j => ?_, fun {j a p} h => ?_, fun {j a p} h _ => ?_⟩
  · obtain ⟨exported, hj⟩ := clearPredecessors_apply g m j
    rw [hj]
  · exact (hsame j).symm ▸ hsound j
  · exact hsame j ▸ h
  · exact (hsame j).symm ▸ h

theorem During.own_wellFormed (h : During g m t) (y : M) : (g y).ownAddrSpace.WellFormed :=
  h.shape.ownAddrSpace y ▸ (h.ranged y).own

variable [Add D] [HMul D R D]

/-- Without modifiers nothing throws in a step. -/
theorem During.step_ne_error (h : During g m t) (ha : g.Acyclic) (hmodifier : ∀ m, (g m).modifier = [])
    {e : Failure} : refreshStep x t ≠ .error e := by
  intro herror
  obtain ⟨allowed, hallowed, -⟩ := exists_mem_getAllowedSpaces ha h.own_wellFormed hmodifier x
  rw [← getAllowedSpaces_congr h.shape] at hallowed
  have hexport : ∃ exported, (refreshed t x allowed).exportOf = .ok exported := by
    have hnone : (refreshed t x allowed).modifier = [] := (h.shape.modifier x).trans (hmodifier x)
    unfold VpsimModule.exportOf
    rw [hnone]
    exact ⟨_, rfl⟩
  obtain ⟨exported, hexported⟩ := hexport
  rw [refreshStep_of_ok hallowed hexported] at herror
  cases herror

/-- Without modifiers a refresh can only run out of depth. -/
theorem error_of_refresh (hw : g.Wired) (hr : g.Ranged) (ha : g.Acyclic) (hmodifier : ∀ m, (g m).modifier = [])
    {fuel : ℕ} {e : Failure} (hrun : refreshParameters fuel m g = .error e) : e = .outOfFuel :=
  (During.confined hw).error_of_propagate (fun _ h => h.step_ne_error ha hmodifier) .refl
    (During.start hr hw m) hrun

/-- A step trims the own parameters of its module to the memories that it can reach. -/
theorem Trimming.step (h : Trimming g m t) (ha : g.Acyclic) (hmodifier : ∀ m, (g m).modifier = [])
    (hone : g.Unambiguous) (hx : Reaches g.succs x m) (hstep : refreshStep x t = .ok (t', next)) :
    Trimming g m t' ∧ Trimmed g x t' ∧ ∀ j, j ≠ x → t' j = t j := by
  have hduring := h.toDuring.step hx hstep
  obtain ⟨allowed, exported, hallowed, -, rfl, -⟩ := refreshStep_eq_ok hstep
  have hwf := h.ranged.getAllowedSpaces hallowed
  obtain ⟨reached, hreached, hmem⟩ := exists_mem_getAllowedSpaces ha h.toDuring.own_wellFormed hmodifier x
  rw [getAllowedSpaces_congr h.shape, hreached] at hallowed
  obtain rfl := Except.ok.inj hallowed
  have hin (a : ℕ) : (∃ s ∈ reached.members, a ∈ s) ↔ g.Provides x a := by
    constructor
    · rintro ⟨s, hs, has⟩
      obtain ⟨y, hxy, hmm, rfl⟩ := (hmem s).mp hs
      exact ⟨y, hxy, hmm, has⟩
    · rintro ⟨y, hxy, hmm, has⟩
      exact ⟨_, (hmem _).mpr ⟨y, hxy, hmm, rfl⟩, has⟩
  have hsound : ((t x).intrinsecParameters.trim reached).Sound := by
    refine (sound_trim_iff (h.sound x) hwf).mpr fun a hdefines s hs s' hs' has has' => ?_
    obtain ⟨p, hp⟩ := defines_iff.mp hdefines
    obtain ⟨y, hxy, hmm, rfl⟩ := (hmem s).mp hs
    obtain ⟨y', hxy', hmm', rfl⟩ := (hmem s').mp hs'
    exact hone x a p (h.old hp) y y' hxy hxy' hmm hmm' has has'
  have htrim {a : ℕ} {p : ModuleParameter D R} : ((t x).intrinsecParameters.trim reached).Has a p ↔
      (t x).intrinsecParameters.Has a p ∧ g.Provides x a :=
    (has_trim (h.sound x) hwf).trans (and_congr_right fun _ => hin a)
  have hself : (Function.update t x { refreshed t x reached with exportedParameters := exported } x).intrinsecParameters =
      (t x).intrinsecParameters.trim reached := by
    rw [Function.update_self]
    rfl
  have hother (j : M) (hj : j ≠ x) :
      Function.update t x { refreshed t x reached with exportedParameters := exported } j = t j :=
    Function.update_of_ne hj _ _
  refine ⟨⟨hduring, fun j => ?_, fun j => ?_, fun {j a p} hp => ?_, fun {j a p} hp hprovides => ?_⟩, ⟨?_, ?_⟩, hother⟩
  · refine (field_update (fun v => v.ports.map OutPort.successor) ?_ j).trans (h.ports j)
    unfold refreshed
    dsimp only
    rw [List.map_map]
    refine List.map_congr_left fun port _ => ?_
    rw [Function.comp_apply]
    split
    · rfl
    · rfl
  · by_cases hj : j = x
    · rw [hj, hself]
      exact hsound
    · rw [hother j hj]
      exact h.sound j
  · by_cases hj : j = x
    · subst hj
      rw [hself, htrim] at hp
      exact h.old hp.1
    · rw [hother j hj] at hp
      exact h.old hp
  · by_cases hj : j = x
    · subst hj
      rw [hself, htrim]
      exact ⟨h.kept hp hprovides, hprovides⟩
    · rw [hother j hj]
      exact h.kept hp hprovides
  · rw [hself]
    exact compact_trim _ _
  · intro a p hp
    rw [hself, htrim] at hp
    exact hp.2

/-- The steps of a call trim the own parameters of their modules. -/
theorem Trimming.settles (hw : g.Wired) (ha : g.Acyclic) (hmodifier : ∀ m, (g m).modifier = [])
    (hone : g.Unambiguous) :
    Settles refreshStep (fun x => Reaches g.succs x m) (Trimming g m) (Trimmed g) where
  inv hx h hstep := (h.step ha hmodifier hone hx hstep).1
  next hx h hstep := (During.confined hw).next hx h.toDuring hstep
  self hx h hstep := .inl (h.step ha hmodifier hone hx hstep).2.1
  other hx h hstep j hj htrimmed := by
    have hsame := (h.step ha hmodifier hone hx hstep).2.2 j hj
    exact .inl ⟨hsame.symm ▸ htrimmed.compact, fun {a p} hp => htrimmed.provided (hsame ▸ hp)⟩

/-- A refresh trims the own parameters of its module, if those of the other modules have been trimmed. -/
theorem trimmed_refresh (hw : g.Wired) (hr : g.Ranged) (ha : g.Acyclic) (hmodifier : ∀ m, (g m).modifier = [])
    (hsound : ∀ j, (g j).intrinsecParameters.Sound) (hone : g.Unambiguous)
    (hothers : ∀ j, j ≠ m → Trimmed g j g) {fuel : ℕ} (hrun : refreshParameters fuel m g = .ok t) :
    Trimming g m t ∧ ∀ j, Trimmed g j t := by
  have hstart : Trimming g m (clearPredecessors g m) := .start hr hw hsound m
  have hsettles : Settles refreshStep (fun x => Reaches g.succs x m) (Trimming g m) (Trimmed g) :=
    Trimming.settles hw ha hmodifier hone
  obtain ⟨hm, hkeep⟩ := hsettles.propagate .refl hstart hrun
  refine ⟨hsettles.toConfined.propagate .refl hstart hrun, fun j => ?_⟩
  by_cases hj : j = m
  · exact hj ▸ hm
  · apply hkeep j
    obtain ⟨exported, hx⟩ := clearPredecessors_apply g m j
    have hsame : (clearPredecessors g m j).intrinsecParameters = (g j).intrinsecParameters := by rw [hx]
    exact ⟨hsame.symm ▸ (hothers j hj).compact, fun {a p} hp => (hothers j hj).provided (hsame ▸ hp)⟩

end

end Graph

end Vpsim.Core
