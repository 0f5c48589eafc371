import Vpsim.Core.Fragmentation
import Mathlib.Algebra.Group.Defs

/-!
# The algebra of parameter sets

Merging imported parameters joins two sets pointwise, and exporting adds the delays pointwise after
they are scaled. Both end in `defrag`, and a defragmented container is determined by its values, so
the laws of the pointwise operations are laws of the sets.
-/

namespace Vpsim.Core

open Vpsim.Lib

namespace ParamContainer

variable {V : Type}

theorem combine_comm {pick : V → V → V} (h : ∀ x y, pick x y = pick y x) (o o' : Option V) :
    combine pick o o' = combine pick o' o := by
  cases o with
  | none => rw [combine_none_left, combine_none_right]
  | some x =>
    cases o' with
    | none => rw [combine_none_left, combine_none_right]
    | some y => rw [combine_some, combine_some, h]

theorem combine_assoc {pick : V → V → V} (h : ∀ x y z, pick (pick x y) z = pick x (pick y z))
    (o o' o'' : Option V) : combine pick (combine pick o o') o'' = combine pick o (combine pick o' o'') := by
  cases o with
  | none => rw [combine_none_left, combine_none_left]
  | some x =>
    cases o' with
    | none => rw [combine_none_right, combine_none_left]
    | some y =>
      cases o'' with
      | none => rw [combine_none_right, combine_none_right]
      | some z => rw [combine_some, combine_some, combine_some, combine_some, h]

theorem combine_self {pick : V → V → V} (h : ∀ x, pick x x = x) (o : Option V) : combine pick o o = o := by
  cases o with
  | none => rfl
  | some x => rw [combine_some, h]

theorem combine_congr {pick pick' : V → V → V} (h : ∀ x y, pick x y = pick' x y) (o o' : Option V) :
    combine pick o o' = combine pick' o o' := by
  rw [show pick = pick' from funext fun x => funext fun y => h x y]

variable [DecidableEq V]

theorem Sound.absorb {pick : V → V → V} {source target : ParamContainer V} (ht : Sound target)
    (hs : Sound source) : Sound (absorb pick source target) :=
  (sound_absorb pick ht hs.wellFormed).1

/-- Merging two containers in either order gives the same container. -/
theorem absorb_comm {pick : V → V → V} (h : ∀ x y, pick x y = pick y x) {pc pc' : ParamContainer V}
    (hs : Sound pc) (hs' : Sound pc') : absorb pick pc' pc = absorb pick pc pc' := by
  apply (compact_defrag _).ext (compact_defrag _) (hs.absorb hs') (hs'.absorb hs)
  intro a
  exact (valueAt_absorb pick hs hs' a).trans
    ((combine_comm h _ _).trans (valueAt_absorb pick hs' hs a).symm)

theorem absorb_assoc {pick : V → V → V} (h : ∀ x y z, pick (pick x y) z = pick x (pick y z))
    {pc pc' pc'' : ParamContainer V} (hs : Sound pc) (hs' : Sound pc') (hs'' : Sound pc'') :
    absorb pick pc'' (absorb pick pc' pc) = absorb pick (absorb pick pc'' pc') pc := by
  apply (compact_defrag _).ext (compact_defrag _) ((hs.absorb hs').absorb hs'') (hs.absorb (hs'.absorb hs''))
  intro a
  have hs₁ : Sound (absorb pick pc' pc) := hs.absorb hs'
  have hs₂ : Sound (absorb pick pc'' pc') := hs'.absorb hs''
  have hleft := valueAt_absorb pick hs₁ hs'' a
  have hright := valueAt_absorb pick hs hs₂ a
  rw [valueAt_absorb pick hs hs', combine_assoc h] at hleft
  rw [valueAt_absorb pick hs' hs''] at hright
  exact hleft.trans hright.symm

/-- A defragmented container merged with a copy of itself is unchanged. -/
theorem absorb_self {pick : V → V → V} (h : ∀ x, pick x x = x) {pc : ParamContainer V} (hs : Sound pc)
    (hc : Compact pc) : absorb pick pc pc = pc := by
  apply (compact_defrag _).ext hc (hs.absorb hs) hs
  intro a
  exact (valueAt_absorb pick hs hs a).trans (combine_self h _)

end ParamContainer

namespace ParameterSet

open ParamContainer

variable {D R : Type}

theorem maxBlocking_comm (x y : BlockingTLMEnabled) : maxBlocking x y = maxBlocking y x := by
  cases x <;> cases y <;> rfl

theorem maxBlocking_assoc (x y z : BlockingTLMEnabled) :
    maxBlocking (maxBlocking x y) z = maxBlocking x (maxBlocking y z) := by
  cases x <;> cases y <;> cases z <;> rfl

theorem maxBlocking_self (x : BlockingTLMEnabled) : maxBlocking x x = x := by
  cases x <;> rfl

/-- Enabled is the larger blocking mode. -/
theorem maxBlocking_eq (x y : BlockingTLMEnabled) :
    maxBlocking x y = if x = .enabled ∨ y = .enabled then .enabled else .disabled := by
  cases x <;> cases y <;> rfl

/-- The larger delay parameter is the shorter delay. -/
theorem maxDelay_eq_min [LinearOrder D] (x y : D) : maxDelay x y = min x y := by
  rw [maxDelay]
  split_ifs with h
  · exact (min_eq_right (le_of_lt h)).symm
  · exact (min_eq_left (le_of_not_gt h)).symm

variable [LinearOrder D]

theorem mergeImportedParam_comm {A B : ParameterSet D R} (hA : A.Sound) (hB : B.Sound)
    (hrate : A.approximateTraversalRateParameter = B.approximateTraversalRateParameter) :
    A.mergeImportedParam B = B.mergeImportedParam A := by
  rw [mergeImportedParam, mergeImportedParam, ParameterSet.mk.injEq]
  refine ⟨absorb_comm maxBlocking_comm hA.blocking hB.blocking, absorb_comm (fun x y => ?_) hA.delay hB.delay, hrate⟩
  rw [maxDelay_eq_min, maxDelay_eq_min, min_comm]

theorem mergeImportedParam_assoc {A B C : ParameterSet D R} (hA : A.Sound) (hB : B.Sound) (hC : C.Sound) :
    (A.mergeImportedParam B).mergeImportedParam C = A.mergeImportedParam (B.mergeImportedParam C) := by
  rw [mergeImportedParam, mergeImportedParam, mergeImportedParam, mergeImportedParam, ParameterSet.mk.injEq]
  refine ⟨absorb_assoc maxBlocking_assoc hA.blocking hB.blocking hC.blocking,
    absorb_assoc (fun x y z => ?_) hA.delay hB.delay hC.delay, rfl⟩
  simp only [maxDelay_eq_min, min_assoc]

theorem mergeImportedParam_self [DecidableEq R] {A : ParameterSet D R} (hA : A.Sound) (hc : A.Compact) :
    A.mergeImportedParam A = A := by
  obtain ⟨b, d, r⟩ := A
  rw [mergeImportedParam, ParameterSet.mk.injEq]
  refine ⟨absorb_self maxBlocking_self hA.blocking hc.blocking, absorb_self (fun x => ?_) hA.delay hc.delay, rfl⟩
  rw [maxDelay_eq_min, min_self]

/-- Merging a set that is another object than the one called takes at each address the larger of the two
values, which is the enabled mode or the shorter delay, or the only one. On sets without traversal rates it
is commutative and associative, and a defragmented set merged with a copy of itself compares equal to it. -/
theorem mergeImportedParam_join [DecidableEq R] {A B C : ParameterSet D R} (hA : A.Sound) (hB : B.Sound)
    (hC : C.Sound) :
    (∀ a, valueAt (A.mergeImportedParam B).blockingTLMEnabledParameter a =
        combine (fun x y => if x = .enabled ∨ y = .enabled then .enabled else .disabled)
          (valueAt A.blockingTLMEnabledParameter a) (valueAt B.blockingTLMEnabledParameter a) ∧
      valueAt (A.mergeImportedParam B).approximateDelayParameter a =
        combine min (valueAt A.approximateDelayParameter a) (valueAt B.approximateDelayParameter a)) ∧
    (A.approximateTraversalRateParameter = [] → B.approximateTraversalRateParameter = [] →
      C.approximateTraversalRateParameter = [] →
      (A.mergeImportedParam B).operatorEq (B.mergeImportedParam A) = true ∧
      ((A.mergeImportedParam B).mergeImportedParam C).operatorEq
        (A.mergeImportedParam (B.mergeImportedParam C)) = true ∧
      (A.Compact → (A.mergeImportedParam A).operatorEq A = true)) := by
  constructor
  · intro a
    obtain ⟨hblocking, hdelay⟩ := valueAt_mergeImportedParam hA hB a
    exact ⟨hblocking.trans (combine_congr maxBlocking_eq _ _), hdelay.trans (combine_congr maxDelay_eq_min _ _)⟩
  · intro hrA hrB hrC
    refine ⟨operatorEq_iff.mpr ?_, operatorEq_iff.mpr ?_, fun hc => operatorEq_iff.mpr ?_⟩
    · exact mergeImportedParam_comm hA hB (hrA.trans hrB.symm)
    · exact mergeImportedParam_assoc hA hB hC
    · exact mergeImportedParam_self hA hc

/-- A short delay in the middle of a disabled range. -/
def middle : ParameterSet ℕ ℕ := ⟨[(⟨0, 99⟩, .disabled)], [(⟨10, 19⟩, 4)], []⟩

/-- A longer delay that starts inside the first one, and an enabled range at the end. -/
def upper : ParameterSet ℕ ℕ := ⟨[(⟨50, 2 ^ 64 - 1⟩, .enabled)], [(⟨15, 29⟩, 7)], []⟩

theorem sound_middle : Sound middle :=
  ⟨Sound.of_ordered (by decide) (by decide), Sound.of_ordered (by decide) (by decide), sound_nil⟩

theorem sound_upper : Sound upper :=
  ⟨Sound.of_ordered (by decide) (by decide), Sound.of_ordered (by decide) (by decide), sound_nil⟩

theorem mergeImportedParam_join_middle :
    (∀ a, valueAt (middle.mergeImportedParam upper).blockingTLMEnabledParameter a =
        combine (fun x y => if x = .enabled ∨ y = .enabled then .enabled else .disabled)
          (valueAt middle.blockingTLMEnabledParameter a) (valueAt upper.blockingTLMEnabledParameter a) ∧
      valueAt (middle.mergeImportedParam upper).approximateDelayParameter a =
        combine min (valueAt middle.approximateDelayParameter a) (valueAt upper.approximateDelayParameter a)) ∧
    (middle.mergeImportedParam upper).operatorEq (upper.mergeImportedParam middle) = true ∧
    ((middle.mergeImportedParam upper).mergeImportedParam middle).operatorEq
      (middle.mergeImportedParam (upper.mergeImportedParam middle)) = true ∧
    (middle.mergeImportedParam middle).operatorEq middle = true := by
  have h := mergeImportedParam_join sound_middle sound_upper sound_middle
  obtain ⟨hcomm, hassoc, hself⟩ := h.2 rfl rfl rfl
  exact ⟨h.1, hcomm, hassoc, hself ⟨rfl, rfl, rfl⟩⟩

section Exporting

variable {D R : Type} [LinearOrder D] [AddCommMagma D] [HMul D R D]

theorem addExportedParam_comm {A E : ParameterSet D R} (hA : A.Sound) (hE : E.Sound)
    (hrA : A.approximateTraversalRateParameter = []) (hrE : E.approximateTraversalRateParameter = []) :
    A.addExportedParam E = E.addExportedParam A := by
  have hsoundA := sound_addExportedParam hA hE.wellFormed
  have hsoundE := sound_addExportedParam hE hA.wellFormed
  have hdelay : ∀ a, valueAt (A.addExportedParam E).approximateDelayParameter a =
      valueAt (E.addExportedParam A).approximateDelayParameter a := by
    intro a
    rw [(valueAt_addExportedParam hA hE a).2, (valueAt_addExportedParam hE hA a).2, hrA, hrE]
    have hsame : ∀ o : Option D,
        o.map (scaled (fun (d : D) (r : R) => d * r) (valueAt ([] : ParamContainer R) a)) = o :=
      fun o => Option.map_id_fun' ▸ rfl
    rw [hsame, hsame]
    exact combine_comm add_comm _ _
  have hcontainer := (compact_defrag _).ext (compact_defrag _) hsoundA.delay hsoundE.delay hdelay
  have hblocking := absorb_comm maxBlocking_comm hA.blocking hE.blocking
  obtain ⟨b, d, r⟩ := A
  obtain ⟨b', d', r'⟩ := E
  rw [addExportedParam, addExportedParam, ParameterSet.mk.injEq]
  exact ⟨hblocking, hcontainer, hrA.trans hrE.symm⟩

/-- Exporting through a set that is another object than the one called adds at each address the exported
delay to the old one, which is scaled where there is a traversal rate, and keeps the only delay where one is
missing; the blocking mode is the larger one. Without traversal rates the two sets may be exchanged. -/
theorem addExportedParam_pointwise [DecidableEq R] {A E : ParameterSet D R} (hA : A.Sound) (hE : E.Sound) :
    (∀ a, valueAt (A.addExportedParam E).approximateDelayParameter a =
        combine (· + ·)
          ((valueAt A.approximateDelayParameter a).map fun d =>
            (valueAt E.approximateTraversalRateParameter a).elim d fun r => d * r)
          (valueAt E.approximateDelayParameter a) ∧
      valueAt (A.addExportedParam E).blockingTLMEnabledParameter a =
        combine (fun x y => if x = .enabled ∨ y = .enabled then .enabled else .disabled)
          (valueAt A.blockingTLMEnabledParameter a) (valueAt E.blockingTLMEnabledParameter a)) ∧
    (A.approximateTraversalRateParameter = [] → E.approximateTraversalRateParameter = [] →
      (A.addExportedParam E).operatorEq (E.addExportedParam A) = true) := by
  constructor
  · intro a
    obtain ⟨hblocking, hdelay⟩ := valueAt_addExportedParam hA hE a
    exact ⟨hdelay, hblocking.trans (combine_congr maxBlocking_eq _ _)⟩
  · intro hrA hrE
    exact operatorEq_iff.mpr (addExportedParam_comm hA hE hrA hrE)

end Exporting

theorem addExportedParam_pointwise_middle :
    (∀ a, valueAt (middle.addExportedParam upper).approximateDelayParameter a =
        combine (· + ·)
          ((valueAt middle.approximateDelayParameter a).map fun d =>
            (valueAt upper.approximateTraversalRateParameter a).elim d fun r => d * r)
          (valueAt upper.approximateDelayParameter a) ∧
      valueAt (middle.addExportedParam upper).blockingTLMEnabledParameter a =
        combine (fun x y => if x = .enabled ∨ y = .enabled then .enabled else .disabled)
          (valueAt middle.blockingTLMEnabledParameter a) (valueAt upper.blockingTLMEnabledParameter a)) ∧
    (middle.addExportedParam upper).operatorEq (upper.addExportedParam middle) = true := by
  have h := addExportedParam_pointwise sound_middle sound_upper
  exact ⟨h.1, h.2 rfl rfl⟩

end ParameterSet

end Vpsim.Core
