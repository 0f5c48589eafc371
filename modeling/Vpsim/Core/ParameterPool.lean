import Vpsim.Core.ParameterSet
import Mathlib.Logic.Function.Basic

/-!
# The representation invariant over sequences of operations

A pool of parameter sets goes through an arbitrary sequence of `setParameter`,
`mergeImportedParam`, `addExportedParam`, assignment and `trim`. All of them but `trim` keep
every container sorted and disjoint; `trim` cuts an entry once for each member of the
restriction, so members that overlap on an entry leave it twice in the container.
-/

namespace Vpsim.Core

/-- An operation on the sets of a pool, which are named by `ι`. Ranges given by the caller are
well formed. `mergeImportedParam` and `addExportedParam` go through the containers of their argument while
they change those of the set, so the argument is another set: for the same one the loops have no defined
outcome. -/
inductive PoolOp (ι D R : Type) where
  | setParameter (i : ι) (as : AddrSpace) (has : as.WellFormed) (param : ModuleParameter D R)
  | mergeImportedParam (i j : ι) (hne : i ≠ j)
  | addExportedParam (i j : ι) (hne : i ≠ j)
  | assign (i j : ι)
  | trim (i : ι) (restriction : SpaceSet) (hwf : ∀ s ∈ restriction.members, s.WellFormed)

/-- The parameter sets of a pool. -/
abbrev Pool (ι D R : Type) := ι → ParameterSet D R

namespace PoolOp

variable {ι D R : Type} [DecidableEq ι]

/-- A sound pool stays sound exactly when the set that is put in is sound. -/
theorem sound_update {pool : Pool ι D R} (h : ∀ i, (pool i).Sound) (i : ι) {ps : ParameterSet D R} :
    (∀ j, (Function.update pool i ps j).Sound) ↔ ps.Sound := by
  constructor
  · intro hall
    simpa using hall i
  · intro hps j
    by_cases hj : j = i
    · subst hj
      simpa using hps
    · simpa [Function.update_of_ne hj] using h j

variable [LinearOrder D] [Add D] [HMul D R D] [DecidableEq R]

/-- The pool after an operation; only the set `i` of the operation changes. The assignment operator clears
each container before it copies that of its argument, so a set that is assigned to itself ends empty. -/
def apply (pool : Pool ι D R) : PoolOp ι D R → Pool ι D R
  | .setParameter i as _ param => Function.update pool i ((pool i).setParameter as param)
  | .mergeImportedParam i j _ => Function.update pool i ((pool i).mergeImportedParam (pool j))
  | .addExportedParam i j _ => Function.update pool i ((pool i).addExportedParam (pool j))
  | .assign i j => Function.update pool i (if i = j then ParameterSet.empty else pool j)
  | .trim i restriction _ => Function.update pool i ((pool i).trim restriction)

/-- A trimmed set keeps exactly its addresses in the restriction. -/
def KeepsValues (pool : Pool ι D R) (op : PoolOp ι D R) : Prop :=
  match op with
  | .trim i restriction _ => (op.apply pool i).RestrictedTo (pool i) restriction
  | _ => True

/-- No address of a set that is trimmed lies in two members of the restriction. -/
def TrimsApart (pool : Pool ι D R) : PoolOp ι D R → Prop
  | .trim i restriction _ => ∀ a, (pool i).Defines a →
      ∀ s ∈ restriction.members, ∀ t ∈ restriction.members, a ∈ s → a ∈ t → s = t
  | _ => True

/-- After every operation of the sequence all sets of the pool are sound, and each `trim` has
kept exactly the values it should. -/
def RunsSoundly : Pool ι D R → List (PoolOp ι D R) → Prop
  | _, [] => True
  | pool, op :: ops => (∀ i, (op.apply pool i).Sound) ∧ op.KeepsValues pool ∧ RunsSoundly (op.apply pool) ops

/-- Every `trim` of the sequence meets `TrimsApart` in the pool it starts from. -/
def AllTrimApart : Pool ι D R → List (PoolOp ι D R) → Prop
  | _, [] => True
  | pool, op :: ops => op.TrimsApart pool ∧ AllTrimApart (op.apply pool) ops

/-- After one operation the pool is still sound exactly when the operation trims apart. -/
theorem sound_apply_iff {pool : Pool ι D R} (h : ∀ i, (pool i).Sound) (op : PoolOp ι D R) :
    (∀ i, (op.apply pool i).Sound) ↔ op.TrimsApart pool := by
  cases op with
  | setParameter i as has param =>
    simp only [apply, TrimsApart, sound_update h i, iff_true]
    exact ParameterSet.sound_setParameter (h i) has param
  | mergeImportedParam i j hne =>
    simp only [apply, TrimsApart, sound_update h i, iff_true]
    exact ParameterSet.sound_mergeImportedParam (h i) (h j).wellFormed
  | addExportedParam i j hne =>
    simp only [apply, TrimsApart, sound_update h i, iff_true]
    exact ParameterSet.sound_addExportedParam (h i) (h j).wellFormed
  | assign i j =>
    simp only [apply, TrimsApart, sound_update h i, iff_true]
    split
    · exact ParameterSet.sound_empty
    · exact h j
  | trim i restriction hwf =>
    simp only [apply, TrimsApart, sound_update h i]
    exact ParameterSet.sound_trim_iff (h i) hwf

theorem keepsValues {pool : Pool ι D R} (h : ∀ i, (pool i).Sound) (op : PoolOp ι D R) :
    op.KeepsValues pool := by
  cases op with
  | trim i restriction hwf =>
    simp only [KeepsValues, apply, Function.update_self]
    exact ParameterSet.restrictedTo_trim (h i) hwf
  | _ => trivial

/-- From a sound pool, a sequence runs soundly exactly when every `trim` of it is given a
restriction that holds no address of the trimmed set twice. -/
theorem runsSoundly_iff {pool : Pool ι D R} (h : ∀ i, (pool i).Sound) (ops : List (PoolOp ι D R)) :
    RunsSoundly pool ops ↔ AllTrimApart pool ops := by
  induction ops generalizing pool with
  | nil => exact Iff.rfl
  | cons op ops ih =>
    rw [RunsSoundly, AllTrimApart]
    constructor
    · rintro ⟨hsound, -, hrest⟩
      exact ⟨(sound_apply_iff h op).mp hsound, (ih hsound).mp hrest⟩
    · rintro ⟨hap, hrest⟩
      have hsound := (sound_apply_iff h op).mpr hap
      exact ⟨hsound, keepsValues h op, (ih hsound).mpr hrest⟩

/-- The pool of empty sets. -/
def emptyPool : Pool ι D R := fun _ => ParameterSet.empty

/-- Starting from empty sets, the representation invariant and the contract of `trim` hold after
every operation of a sequence if and only if no address of a set is held twice by the
restriction it is trimmed to. -/
theorem invariant_iff_trims_apart (ops : List (PoolOp ι D R)) :
    RunsSoundly emptyPool ops ↔ AllTrimApart emptyPool ops :=
  runsSoundly_iff (fun _ => ParameterSet.sound_empty) ops

/-- Two address spaces that share the addresses five to nine. -/
def overlapping : SpaceSet := SpaceSet.insert ⟨0, 9⟩ (SpaceSet.insert ⟨5, 20⟩ SpaceSet.empty)

theorem overlapping_wellFormed : ∀ s ∈ overlapping.members, s.WellFormed := by decide

theorem firstSixteen_wellFormed : (AddrSpace.mk 0 15).WellFormed := by decide

/-- One blocking parameter on the first sixteen addresses, trimmed to the two spaces. -/
def overlappingTrim : List (PoolOp Unit ℕ ℕ) :=
  [.setParameter () ⟨0, 15⟩ firstSixteen_wellFormed (.blockingTLMEnabled .enabled),
   .trim () overlapping overlapping_wellFormed]

/-- The trimmed container holds the addresses five to nine twice. -/
theorem trim_overlaps : ¬ RunsSoundly emptyPool overlappingTrim := by
  rintro ⟨-, -, hsound, -⟩
  have hdis := (hsound ()).blocking.disjoint
  have hval : ((overlappingTrim.foldl (fun pool op => op.apply pool) emptyPool)
      ()).blockingTLMEnabledParameter = [(⟨0, 9⟩, .enabled), (⟨5, 15⟩, .enabled)] := by
    decide +kernel
  have hdis' : [((⟨0, 9⟩ : AddrSpace), BlockingTLMEnabled.enabled), (⟨5, 15⟩, .enabled)].Pairwise
      fun p q => ∀ a ∈ p.1, a ∉ q.1 := hval ▸ hdis
  exact (List.pairwise_cons.mp hdis').1 _ List.mem_cons_self 5 (by decide) (by decide)

end PoolOp

end Vpsim.Core
