import Vpsim.Core.RefreshSpec
import Vpsim.Core.ModifierChain

/-!
# What a module exports

A module exports the merge of what its ports import, with its own parameters added, through its
modifiers. Every set that is exported is sound and has no traversal rates, whatever the own
parameters of the modules are, and it is empty only if nothing is imported and no blocking mode and
no delay is added.
-/

namespace Vpsim.Core

open Vpsim.Lib

namespace ParamContainer

variable {V W : Type}

/-- A container of well-formed ranges is empty when it has no value anywhere. -/
theorem eq_nil_iff {pc : ParamContainer V} (hwf : ∀ p ∈ pc, p.1.WellFormed) :
    pc = [] ↔ ∀ a, valueAt pc a = none := by
  constructor
  · intro h a
    rw [h]
    rfl
  · intro h
    cases pc with
    | nil => rfl
    | cons p rest =>
      have hbase := (hwf p List.mem_cons_self).base_mem
      exact absurd hbase (valueAt_eq_none.mp (h p.1.baseAddress) p List.mem_cons_self)

theorem combineAll_eq_none {pick : V → V → V} {old : Option V} {news : List V} :
    combineAll pick old news = none ↔ old = none ∧ news = [] := by
  induction news generalizing old with
  | nil => simp [combineAll]
  | cons v news ih =>
    rw [show combineAll pick old (v :: news) = combineAll pick (combine pick old (some v)) news from rfl, ih]
    cases old <;> simp [combine]

/-- A merge is empty only if both containers are. -/
theorem absorb_eq_nil [DecidableEq V] {pick : V → V → V} {source target : ParamContainer V} (ht : Sound target)
    (hs : ∀ p ∈ source, p.1.WellFormed) : absorb pick source target = [] ↔ source = [] ∧ target = [] := by
  obtain ⟨hsound, hval⟩ := sound_absorb pick ht hs
  have hnone (a : ℕ) : valueAt (absorb pick source target) a = none ↔
      valueAt source a = none ∧ valueAt target a = none := by
    rw [hval, combineAll_eq_none, and_comm]
    exact and_congr_left fun _ => List.head?_eq_none_iff.symm
  rw [eq_nil_iff hsound.wellFormed, eq_nil_iff hs, eq_nil_iff ht.wellFormed, ← forall_and]
  exact forall_congr' hnone

/-- Scaling drops no range. -/
theorem newDelays_eq_nil [DecidableEq V] {scale : V → W → V} {trRates : ParamContainer W}
    (hr : ∀ p ∈ trRates, p.1.WellFormed) {delays : ParamContainer V} (hd : Sound delays) :
    newDelays scale trRates delays = [] ↔ delays = [] := by
  obtain ⟨hsound, hnone, -⟩ := sound_newDelays scale hr hd
  rw [eq_nil_iff hsound.wellFormed, eq_nil_iff hd.wellFormed]
  exact forall_congr' hnone

/-- `defrag` keeps the ranges of a sorted container well formed, also where they overlap. -/
theorem wellFormed_defrag [DecidableEq V] {pc : ParamContainer V}
    (hsorted : pc.Pairwise fun p q => p.1.baseAddress ≤ q.1.baseAddress) (hwf : ∀ p ∈ pc, p.1.WellFormed) :
    ∀ p ∈ defrag pc, p.1.WellFormed := by
  fun_induction defrag pc with
  | case1 pc hnone => exact hwf
  | case2 pc pc' hsome ih =>
    obtain ⟨l, rest, as1, as2, v, rfl, -, rfl⟩ := defragOnce_cases hsome
    have h1 := hwf (as1, v) (by simp)
    have h2 := hwf (as2, v) (by simp)
    simp only [List.pairwise_append, List.pairwise_cons, List.mem_cons, forall_eq_or_imp] at hsorted
    have hle : as1.baseAddress ≤ as2.endAddress := hsorted.2.1.1.1.trans h2.base_le_end
    apply ih
    · simp only [List.pairwise_append, List.pairwise_cons, List.mem_cons, forall_eq_or_imp]
      exact ⟨hsorted.1, ⟨hsorted.2.1.1.2, hsorted.2.1.2.2⟩,
        fun p hp => ⟨(hsorted.2.2 p hp).1, (hsorted.2.2 p hp).2.2⟩⟩
    · intro p hp
      rcases List.mem_append.mp hp with hp | hp
      · exact hwf p (by simp [hp])
      · rcases List.mem_cons.mp hp with rfl | hp
        · exact ⟨hle, h2.end_lt⟩
        · exact hwf p (by simp [hp])

/-- `trim` keeps ranges well formed, also where they overlap. -/
theorem wellFormed_trim [DecidableEq V] {pc : ParamContainer V} (h : ∀ p ∈ pc, p.1.WellFormed)
    {restriction : List AddrSpace} (hwf : ∀ s ∈ restriction, s.WellFormed) :
    ∀ p ∈ trim restriction pc, p.1.WellFormed := by
  apply wellFormed_defrag (sort_sorted _)
  intro q hq
  obtain ⟨p, hp, hq⟩ := List.mem_flatMap.mp ((sort_perm _).mem_iff.mp hq)
  exact trimEntry_wellFormed (h p hp) hwf q hq

theorem defrag_eq_nil [DecidableEq V] {pc : ParamContainer V} : defrag pc = [] ↔ pc = [] := by
  fun_induction defrag pc with
  | case1 pc hnone => exact Iff.rfl
  | case2 pc pc' hsome ih =>
    obtain ⟨l, rest, as1, as2, v, rfl, -, rfl⟩ := defragOnce_cases hsome
    rw [ih]
    simp

/-- A range of a defragmented container begins where one of the old ranges did. -/
theorem exists_base_of_mem_defrag [DecidableEq V] {pc : ParamContainer V} :
    ∀ p ∈ defrag pc, ∃ q ∈ pc, q.1.baseAddress = p.1.baseAddress := by
  fun_induction defrag pc with
  | case1 pc hnone => exact fun p hp => ⟨p, hp, rfl⟩
  | case2 pc pc' hsome ih =>
    obtain ⟨l, rest, as1, as2, v, rfl, -, rfl⟩ := defragOnce_cases hsome
    intro p hp
    obtain ⟨q, hq, hbase⟩ := ih p hp
    rcases List.mem_append.mp hq with hq | hq
    · exact ⟨q, by simp [hq], hbase⟩
    · rcases List.mem_cons.mp hq with rfl | hq
      · exact ⟨(as1, v), by simp, hbase⟩
      · exact ⟨q, by simp [hq], hbase⟩

/-- Every range that `trim` leaves begins in the restriction. -/
theorem exists_mem_of_mem_trim [DecidableEq V] {pc : ParamContainer V} (h : ∀ p ∈ pc, p.1.WellFormed)
    {restriction : List AddrSpace} (hwf : ∀ s ∈ restriction, s.WellFormed) :
    ∀ p ∈ trim restriction pc, ∃ s ∈ restriction, p.1.baseAddress ∈ s := by
  intro p hp
  obtain ⟨q, hq, hbase⟩ := exists_base_of_mem_defrag p hp
  obtain ⟨r, hr, hqr⟩ := List.mem_flatMap.mp ((sort_perm _).mem_iff.mp hq)
  obtain ⟨s, hs, hmeet, heq⟩ := mem_trimEntry hqr
  have hmem := ((h r hr).intersection (hwf s hs) hmeet).base_mem
  rw [← heq, hbase, heq] at hmem
  exact ⟨s, hs, (AddrSpace.mem_intersection hmeet).mp hmem |>.2⟩

/-- Trimming what has been trimmed does not empty it. -/
theorem trim_trim_eq_nil [DecidableEq V] {pc : ParamContainer V} (h : ∀ p ∈ pc, p.1.WellFormed)
    {restriction : List AddrSpace} (hord : restriction.Pairwise AddrSpace.lt)
    (hwf : ∀ s ∈ restriction, s.WellFormed) :
    trim restriction (trim restriction pc) = [] ↔ trim restriction pc = [] := by
  constructor
  · intro hnil
    by_contra hne
    obtain ⟨p, hp⟩ := List.exists_mem_of_ne_nil _ hne
    obtain ⟨s, hs, hmem⟩ := exists_mem_of_mem_trim h hwf p hp
    have hbase : restriction.Pairwise fun s t => s.baseAddress ≤ t.baseAddress :=
      hord.imp fun hst => by unfold AddrSpace.lt at hst; omega
    have hvals := valuesAt_trimEntry p hbase p.1.baseAddress
    have hpos : 0 < restriction.countP fun s => p.1.baseAddress ∈ s :=
      List.countP_pos_iff.mpr ⟨s, hs, decide_eq_true hmem⟩
    -- the trimmed range gives at least one piece
    have hpiece : trimEntry p restriction = [] := by
      have hsorted := defrag_eq_nil.mp hnil
      have hraw := (List.perm_nil.mp ((sort_perm _).symm.trans (List.Perm.of_eq hsorted)))
      exact List.flatMap_eq_nil_iff.mp hraw p hp
    have hp' := (wellFormed_trim h hwf p hp).base_mem
    rw [hpiece, if_pos hp'] at hvals
    have hlen := congrArg List.length hvals
    rw [List.length_replicate] at hlen
    exact absurd hlen (Nat.ne_of_lt hpos)
  · intro hnil
    rw [hnil, trim_nil]

/-- Setting a parameter keeps ranges well formed, also where they overlap. -/
theorem wellFormed_setParameterHelper (pick : V → V → V) {pc : ParamContainer V} (h : ∀ p ∈ pc, p.1.WellFormed)
    {as : AddrSpace} (has : as.WellFormed) (param : V) :
    ∀ p ∈ setParameterHelper pick pc as param, p.1.WellFormed := by
  have hlight : Light pc.weight pc := ⟨h, le_rfl⟩
  exact (hlight.setParameterRec pick _ has param).wellFormed

end ParamContainer

namespace ParameterSet

variable {D R : Type}

/-- Nothing in the set propagates. -/
def Silent (ps : ParameterSet D R) : Prop :=
  ps.blockingTLMEnabledParameter = [] ∧ ps.approximateDelayParameter = []

/-- What a module can export: a sound set without traversal rates. -/
structure Exportable (ps : ParameterSet D R) : Prop where
  sound : Sound ps
  rate : ps.approximateTraversalRateParameter = []

theorem exportable_empty : Exportable (empty : ParameterSet D R) := ⟨sound_empty, rfl⟩

theorem silent_empty : Silent (empty : ParameterSet D R) := ⟨rfl, rfl⟩

theorem Exportable.eq_empty_iff {ps : ParameterSet D R} (h : Exportable ps) : ps = empty ↔ Silent ps := by
  constructor
  · intro heq
    rw [heq]
    exact silent_empty
  · intro hs
    obtain ⟨blocking, delay, rate⟩ := ps
    obtain rfl : rate = [] := h.rate
    obtain ⟨rfl, rfl⟩ : blocking = [] ∧ delay = [] := hs
    rfl

theorem WellFormed.setParameter {ps : ParameterSet D R} (h : WellFormed ps) {as : AddrSpace} (has : as.WellFormed)
    (param : ModuleParameter D R) : WellFormed (ps.setParameter as param) := by
  cases param with
  | blockingTLMEnabled v =>
    exact ⟨ParamContainer.wellFormed_setParameterHelper _ h.blocking has v, h.delay, h.rate⟩
  | approximateDelay d => exact ⟨h.blocking, ParamContainer.wellFormed_setParameterHelper _ h.delay has d, h.rate⟩
  | approximateTraversalRate r =>
    exact ⟨h.blocking, h.delay, ParamContainer.wellFormed_setParameterHelper _ h.rate has r⟩

variable [LinearOrder D]

theorem WellFormed.trim [DecidableEq R] {ps : ParameterSet D R} (h : WellFormed ps) {restriction : SpaceSet}
    (hwf : ∀ s ∈ restriction.members, s.WellFormed) : WellFormed (ps.trim restriction) :=
  ⟨ParamContainer.wellFormed_trim h.blocking hwf, ParamContainer.wellFormed_trim h.delay hwf,
    ParamContainer.wellFormed_trim h.rate hwf⟩

/-- Trimming adds nothing. -/
theorem Silent.trim [DecidableEq R] {ps : ParameterSet D R} (h : Silent ps) (restriction : SpaceSet) :
    Silent (ps.trim restriction) := by
  constructor
  · change ParamContainer.trim _ ps.blockingTLMEnabledParameter = []
    rw [h.1, ParamContainer.trim_nil]
  · change ParamContainer.trim _ ps.approximateDelayParameter = []
    rw [h.2, ParamContainer.trim_nil]

/-- Trimming what has been trimmed does not empty it. -/
theorem WellFormed.silent_trim_trim [DecidableEq R] {ps : ParameterSet D R} (h : WellFormed ps) {restriction : SpaceSet}
    (hwf : ∀ s ∈ restriction.members, s.WellFormed) :
    Silent ((ps.trim restriction).trim restriction) ↔ Silent (ps.trim restriction) :=
  and_congr (ParamContainer.trim_trim_eq_nil h.blocking restriction.ordered hwf)
    (ParamContainer.trim_trim_eq_nil h.delay restriction.ordered hwf)

/-- A merge of two exports is an export, and it is silent when both are. -/
theorem Exportable.merge {ps imported : ParameterSet D R} (h : Exportable ps) (hi : Exportable imported) :
    Exportable (ps.mergeImportedParam imported) ∧
      (Silent (ps.mergeImportedParam imported) ↔ Silent imported ∧ Silent ps) := by
  refine ⟨⟨sound_mergeImportedParam h.sound hi.sound.wellFormed, h.rate⟩, ?_⟩
  have hwf := hi.sound.wellFormed
  refine (and_congr (ParamContainer.absorb_eq_nil h.sound.blocking hwf.blocking)
    (ParamContainer.absorb_eq_nil h.sound.delay hwf.delay)).trans ?_
  exact and_and_and_comm

/-- Adding the own parameters of a module to an export gives an export, which is silent when both are. -/
theorem Exportable.add [Add D] [HMul D R D] {ps added : ParameterSet D R} (h : Exportable ps)
    (ha : WellFormed added) : Exportable (ps.addExportedParam added) ∧
      (Silent (ps.addExportedParam added) ↔ Silent added ∧ Silent ps) := by
  refine ⟨⟨sound_addExportedParam h.sound ha, h.rate⟩, ?_⟩
  have hscaled := (ParamContainer.sound_newDelays (fun (d : D) (r : R) => d * r) ha.rate h.sound.delay).1
  refine (and_congr (ParamContainer.absorb_eq_nil h.sound.blocking ha.blocking)
    (ParamContainer.absorb_eq_nil hscaled ha.delay)).trans ?_
  rw [ParamContainer.newDelays_eq_nil ha.rate h.sound.delay]
  exact and_and_and_comm

end ParameterSet

/-- The representation invariant of a module: imports and exports that are sound, and own parameters
with well-formed ranges, which may overlap. -/
structure VpsimModule.Ranged {M D R : Type} (v : VpsimModule M D R) : Prop where
  own : v.ownAddrSpace.WellFormed
  intrinsec : v.intrinsecParameters.WellFormed
  effective : ∀ port ∈ v.ports, port.effectiveParameters.Exportable
  free : ∀ port ∈ v.ports, port.successor = none → port.effectiveParameters = ParameterSet.empty
  exported : v.exportedParameters.Exportable

theorem ModuleConfig.ranged_construct {M D R : Type} (config : ModuleConfig) :
    (config.construct : VpsimModule M D R).Ranged where
  own := config.own_wellFormed
  intrinsec := ParameterSet.sound_empty.wellFormed
  effective port hport := by
    rw [(List.mem_replicate.mp hport).2]
    exact ParameterSet.exportable_empty
  free port hport _ := by rw [(List.mem_replicate.mp hport).2]
  exported := ParameterSet.exportable_empty

namespace VpsimModule

open ParameterSet

variable {M D R : Type} [LinearOrder D]

/-- The merge over all ports is an export, and it is silent when all of them are. -/
theorem exportable_merges {ports : List (OutPort M D R)}
    (hports : ∀ port ∈ ports, Exportable port.effectiveParameters) {e : ParameterSet D R} (he : Exportable e) :
    Exportable (ports.foldl (fun e port => e.mergeImportedParam port.effectiveParameters) e) ∧
      (Silent (ports.foldl (fun e port => e.mergeImportedParam port.effectiveParameters) e) ↔
        Silent e ∧ ∀ port ∈ ports, Silent port.effectiveParameters) := by
  induction ports generalizing e with
  | nil => exact ⟨he, by simp⟩
  | cons port ports ih =>
    obtain ⟨hfirst, hsilent⟩ := he.merge (hports port List.mem_cons_self)
    obtain ⟨hall, hsilents⟩ := ih (fun q hq => hports q (List.mem_cons_of_mem _ hq)) hfirst
    refine ⟨hall, hsilents.trans ?_⟩
    rw [hsilent, List.forall_mem_cons, and_assoc, and_left_comm]

variable [Add D] [HMul D R D]

/-- What a module exports is sound and without traversal rates. It is empty if nothing is imported and
nothing of its own propagates. -/
theorem Ranged.exportOf {v : VpsimModule M D R} (hv : v.Ranged) {e : ParameterSet D R} (h : v.exportOf = .ok e) :
    Exportable e ∧
      (e = empty ↔ Silent v.intrinsecParameters ∧ ∀ port ∈ v.ports, Silent port.effectiveParameters) := by
  obtain ⟨hmerges, hsilent⟩ := exportable_merges hv.effective exportable_empty
  obtain ⟨hadd, hsilent'⟩ := hmerges.add hv.intrinsec
  obtain ⟨hsound, hblocking, hdelay, hrate⟩ := ParameterSetModifier.sound_apply hadd.sound h
  have he : Exportable e := by
    refine ⟨hsound, List.eq_nil_of_length_eq_zero ?_⟩
    rw [hrate, hadd.rate]
    rfl
  refine ⟨he, he.eq_empty_iff.trans ?_⟩
  have hsame : Silent e ↔ Silent ((v.ports.foldl (fun e port => e.mergeImportedParam port.effectiveParameters)
      empty).addExportedParam v.intrinsecParameters) := by
    unfold Silent
    rw [← List.length_eq_zero_iff, ← List.length_eq_zero_iff, hblocking, hdelay, List.length_eq_zero_iff,
      List.length_eq_zero_iff]
  rw [hsame, hsilent', hsilent]
  simp [silent_empty]

omit [LinearOrder D] [Add D] [HMul D R D] in
/-- Nothing goes through modifiers as nothing. -/
theorem apply_empty (chain : List ParameterSetModifier) :
    ParameterSetModifier.apply (empty : ParameterSet D R) chain = .ok empty := by
  induction chain with
  | nil => rfl
  | cons modifier previous ih =>
    rw [ParameterSetModifier.apply, ih]
    cases modifier <;> rfl

/-- A module from whose fields nothing propagates exports nothing, whatever its modifiers. -/
theorem Ranged.exportOf_of_silent {v : VpsimModule M D R} (hv : v.Ranged) (hown : Silent v.intrinsecParameters)
    (hports : ∀ port ∈ v.ports, Silent port.effectiveParameters) : v.exportOf = .ok empty := by
  obtain ⟨hmerges, hsilent⟩ := exportable_merges hv.effective exportable_empty
  obtain ⟨hadd, hsilent'⟩ := hmerges.add hv.intrinsec
  unfold VpsimModule.exportOf
  rw [hadd.eq_empty_iff.mpr (hsilent'.mpr ⟨hown, hsilent.mpr ⟨silent_empty, hports⟩⟩)]
  exact apply_empty v.modifier

end VpsimModule

/-- A connection that is made: the port exists and is free. -/
theorem Call.prepare_addSuccessor_eq_ok {M D R : Type} [DecidableEq M] {g g' : Graph M D R} {m s : M} {port : ℕ}
    (h : (Call.addSuccessor m s port : Call M D R).prepare g = .ok g') :
    ∃ effective, (g m).ports[port]? = some ⟨none, effective⟩ ∧
      g' = Graph.addPredecessor
        (Function.update g m { g m with ports := (g m).ports.set port ⟨some s, effective⟩ }) s m := by
  unfold Call.prepare at h
  dsimp only at h
  split at h
  · cases h
  · cases h
  · rename_i effective hport
    exact ⟨effective, hport, (Except.ok.inj h).symm⟩

namespace Graph

open ParameterSet

variable {M D R : Type}

/-- The representation invariant of all modules. -/
def Ranged (g : Graph M D R) : Prop := ∀ m, (g m).Ranged

theorem ranged_construct (config : M → ModuleConfig) :
    Ranged fun m => ((config m).construct : VpsimModule M D R) := fun m => (config m).ranged_construct

/-- Reading the successors and trimming keep the invariant of a module. -/
theorem Ranged.refreshed [LinearOrder D] [DecidableEq R] {g : Graph M D R} (h : Ranged g) (m : M) {allowed : SpaceSet}
    (hwf : ∀ s ∈ allowed.members, s.WellFormed) : (refreshed g m allowed).Ranged where
  own := (h m).own
  intrinsec := (h m).intrinsec.trim hwf
  effective port hport := by
    obtain ⟨old, hold, rfl⟩ := List.mem_map.mp hport
    cases hs : old.successor with
    | none => exact (h m).effective old hold
    | some s => exact (h s).exported
  free port hport hfree := by
    obtain ⟨old, hold, rfl⟩ := List.mem_map.mp hport
    cases hs : old.successor with
    | none => exact (h m).free old hold hs
    | some s =>
      rw [hs] at hfree
      cases hfree
  exported := (h m).exported

variable [DecidableEq M]

/-- A change of one module that keeps its invariant. -/
theorem Ranged.update {g : Graph M D R} (h : Ranged g) {m : M} {v : VpsimModule M D R} (hv : v.Ranged) :
    Ranged (Function.update g m v) := by
  intro x
  by_cases hx : x = m
  · rw [hx, Function.update_self]
    exact hv
  · rw [Function.update_of_ne hx]
    exact h x

/-- The spaces that `getAllowedSpaces` returns are well formed. -/
theorem wellFormed_getAllowedSpacesRec {g : Graph M D R} (hown : ∀ m, (g m).ownAddrSpace.WellFormed) {fuel : ℕ}
    {m : M} {called : List M} {r : List M × SpaceSet} (h : getAllowedSpacesRec g fuel m called = .ok r) :
    ∀ s ∈ r.2.members, s.WellFormed := by
  induction fuel generalizing m called r with
  | zero => cases h
  | succ fuel ih =>
    rw [getAllowedSpacesRec_succ] at h
    obtain ⟨r', hloop, h⟩ := bind_eq_ok h
    obtain ⟨allowed, happly, h⟩ := bind_eq_ok h
    have hr' : ∀ s ∈ r'.2.members, s.WellFormed := by
      refine (foldlM_spec (P := fun r : List M × SpaceSet => ∀ s ∈ r.2.members, s.WellFormed)
        (Q := fun _ => True) ?_ (fun _ _ _ _ _ _ => trivial) ?_).1 r' hloop
      · intro c hc s hs c' hstep
        split at hstep
        · exact Except.ok.inj hstep ▸ hc
        · obtain ⟨res, hres, hstep⟩ := bind_eq_ok hstep
          rw [← Except.ok.inj hstep]
          intro t ht
          rcases mem_foldl_insert.mp ht with ht | ht
          · exact hc t ht
          · exact ih hres t ht
      · intro s hs
        cases hs
    rw [← Except.ok.inj h]
    refine ParameterSetModifier.wellFormed_applySpaces (fun s hs => ?_) happly
    split at hs
    · rcases SpaceSet.mem_insertMember.mp hs with rfl | hs
      · exact hown m
      · exact hr' s hs
    · exact hr' s hs

/-- The new predecessor of a module changes nothing else. -/
theorem Ranged.addPredecessor {g : Graph M D R} (h : Ranged g) (s p : M) : Ranged (addPredecessor g s p) := by
  unfold Graph.addPredecessor
  split
  · exact h
  · exact h.update ⟨(h s).own, (h s).intrinsec, (h s).effective, (h s).free, (h s).exported⟩

/-- What a call does before it refreshes the parameters keeps the invariant. -/
theorem Ranged.prepare {g g' : Graph M D R} (h : Ranged g) {c : Call M D R} (hc : c.prepare g = .ok g') :
    Ranged g' := by
  cases c with
  | addSuccessor m s port =>
    obtain ⟨effective, hport, rfl⟩ := Call.prepare_addSuccessor_eq_ok hc
    have hports : ∀ q ∈ (g m).ports.set port ⟨some s, effective⟩, q.effectiveParameters.Exportable ∧
        (q.successor = none → q.effectiveParameters = empty) := by
      intro q hq
      rcases List.mem_or_eq_of_mem_set hq with hq | rfl
      · exact ⟨(h m).effective q hq, (h m).free q hq⟩
      · exact ⟨(h m).effective ⟨none, effective⟩ (List.mem_of_getElem? hport), fun hs => by cases hs⟩
    have hconnected : VpsimModule.Ranged { g m with ports := (g m).ports.set port ⟨some s, effective⟩ } :=
      ⟨(h m).own, (h m).intrinsec, fun q hq => (hports q hq).1, fun q hq => (hports q hq).2, (h m).exported⟩
    exact (h.update hconnected).addPredecessor s m
  | setParameter m as has param =>
    rw [← Except.ok.inj hc]
    exact h.update ⟨(h m).own, (h m).intrinsec.setParameter has param, (h m).effective, (h m).free,
      (h m).exported⟩
  | addParameterSetModifier m modifier =>
    rw [← Except.ok.inj hc]
    exact h.update ⟨(h m).own, (h m).intrinsec, (h m).effective, (h m).free, (h m).exported⟩

variable [Fintype M]

theorem Ranged.getAllowedSpaces {g : Graph M D R} (h : Ranged g) {m : M} {allowed : SpaceSet}
    (ha : getAllowedSpaces g m = .ok allowed) : ∀ s ∈ allowed.members, s.WellFormed := by
  unfold Graph.getAllowedSpaces at ha
  cases hrec : getAllowedSpacesRec g (Fintype.card M) m [] with
  | error e =>
    rw [hrec] at ha
    cases ha
  | ok r =>
    rw [hrec] at ha
    rw [← Except.ok.inj ha]
    exact wellFormed_getAllowedSpacesRec (fun x => (h x).own) hrec

theorem Ranged.clearPredecessors {g : Graph M D R} (h : Ranged g) (m : M) :
    Ranged (clearPredecessors g m) := by
  intro x
  rw [clearPredecessors_eq]
  unfold clearedOn
  split
  · exact ⟨(h x).own, (h x).intrinsec, (h x).effective, (h x).free, exportable_empty⟩
  · exact h x

variable [LinearOrder D] [Add D] [HMul D R D] [DecidableEq R]

theorem Ranged.step {g g' : Graph M D R} (h : Ranged g) {m : M} {next : List M}
    (hstep : refreshStep m g = .ok (g', next)) : Ranged g' := by
  obtain ⟨allowed, exported, ha, he, rfl, -⟩ := refreshStep_eq_ok hstep
  have hnew := h.refreshed m (h.getAllowedSpaces ha)
  exact h.update ⟨hnew.own, hnew.intrinsec, hnew.effective, hnew.free, (hnew.exportOf he).1⟩

end Graph

end Vpsim.Core
