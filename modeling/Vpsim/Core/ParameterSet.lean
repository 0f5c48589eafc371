import Vpsim.Core.ContainerOps
import Mathlib.Order.Lattice
import Mathlib.Order.Defs.LinearOrder

/-!
# Parameter sets

A `ParameterSet` holds three containers: blocking transport, approximate delay and traversal
rate. Delays are values of a linear order with an addition (`sc_time`), rates scale delays
(`sc_time * double`); nothing else is assumed of either type. An operation keeps the
three containers sound; for `trim` this depends on the restriction it is given.
-/

namespace Vpsim.Core

open Vpsim.Lib

/-- `BlockingTLMEnabledParameter::value`, in ascending order. -/
inductive BlockingTLMEnabled where
  | disabled
  | enabled
deriving DecidableEq, Repr

/-- `ModuleParameter`, by its dynamic type. -/
inductive ModuleParameter (D R : Type) where
  | blockingTLMEnabled (value : BlockingTLMEnabled)
  | approximateDelay (delay : D)
  | approximateTraversalRate (rate : R)
deriving DecidableEq, Repr

/-- `std::set<AddrSpace>`: its members in the order of `operator<`, each once. -/
structure SpaceSet where
  members : List AddrSpace
  ordered : members.Pairwise AddrSpace.lt

namespace SpaceSet

/-- The empty set. -/
def empty : SpaceSet := ⟨[], List.Pairwise.nil⟩

/-- `std::set::insert` on the ordered list of the members. -/
def insertMember (s : AddrSpace) : List AddrSpace → List AddrSpace
  | [] => [s]
  | t :: rest => if s.lt t then s :: t :: rest else if s = t then t :: rest else t :: insertMember s rest

theorem mem_insertMember {s t : AddrSpace} {l : List AddrSpace} :
    t ∈ insertMember s l ↔ t = s ∨ t ∈ l := by
  induction l with
  | nil => simp [insertMember]
  | cons u rest ih =>
    rw [insertMember]
    split_ifs with hlt heq
    · simp
    · subst heq; simp
    · simp only [List.mem_cons, ih]
      tauto

theorem insertMember_ordered {s : AddrSpace} {l : List AddrSpace} (h : l.Pairwise AddrSpace.lt) :
    (insertMember s l).Pairwise AddrSpace.lt := by
  induction l with
  | nil => exact List.pairwise_singleton _ _
  | cons u rest ih =>
    rw [List.pairwise_cons] at h
    rw [insertMember]
    split_ifs with hlt heq
    · refine List.pairwise_cons.mpr ⟨fun t ht => ?_, List.pairwise_cons.mpr h⟩
      rcases List.mem_cons.mp ht with rfl | ht
      · exact hlt
      · exact AddrSpace.lt_trans hlt (h.1 t ht)
    · exact List.pairwise_cons.mpr h
    · refine List.pairwise_cons.mpr ⟨fun t ht => ?_, ih h.2⟩
      rcases mem_insertMember.mp ht with rfl | ht
      · exact AddrSpace.lt_of_not_lt_of_ne hlt heq
      · exact h.1 t ht

/-- The set with one more member. -/
def insert (s : AddrSpace) (set : SpaceSet) : SpaceSet :=
  ⟨insertMember s set.members, insertMember_ordered set.ordered⟩

end SpaceSet

/-- `ParameterSet`. -/
structure ParameterSet (D R : Type) where
  blockingTLMEnabledParameter : ParamContainer BlockingTLMEnabled
  approximateDelayParameter : ParamContainer D
  approximateTraversalRateParameter : ParamContainer R
deriving DecidableEq

namespace ParameterSet

variable {D R : Type}

/-- The default constructor. -/
def empty : ParameterSet D R := ⟨[], [], []⟩

/-- `std::max` on blocking parameters, which also is their `operator+`. -/
def maxBlocking : BlockingTLMEnabled → BlockingTLMEnabled → BlockingTLMEnabled
  | .disabled, new => new
  | .enabled, _ => .enabled

/-- `std::max` on delays: the order of delay parameters is the reverse of that of times, so a
new delay is taken when it is shorter. -/
def maxDelay [LinearOrder D] (old new : D) : D := if old > new then new else old

/-- `ParameterSet::setParameter`: the container is chosen by the type of the parameter and a
new value always wins. -/
def setParameter (ps : ParameterSet D R) (as : AddrSpace) : ModuleParameter D R → ParameterSet D R
  | .blockingTLMEnabled v =>
    { ps with blockingTLMEnabledParameter :=
        ParamContainer.setParameterHelper (fun _ new => new) ps.blockingTLMEnabledParameter as v }
  | .approximateDelay d =>
    { ps with approximateDelayParameter :=
        ParamContainer.setParameterHelper (fun _ new => new) ps.approximateDelayParameter as d }
  | .approximateTraversalRate r =>
    { ps with approximateTraversalRateParameter :=
        ParamContainer.setParameterHelper (fun _ new => new) ps.approximateTraversalRateParameter as r }

/-- `ParameterSet::mergeImportedParam`; the traversal rate does not propagate. -/
def mergeImportedParam [LinearOrder D] (ps importedParam : ParameterSet D R) : ParameterSet D R :=
  { ps with
    blockingTLMEnabledParameter := ParamContainer.absorb maxBlocking
      importedParam.blockingTLMEnabledParameter ps.blockingTLMEnabledParameter
    approximateDelayParameter := ParamContainer.absorb maxDelay
      importedParam.approximateDelayParameter ps.approximateDelayParameter }

/-- `ParameterSet::addExportedParam`: the delays are first scaled by the exported traversal
rates, then the exported delays are added. -/
def addExportedParam [LinearOrder D] [Add D] [HMul D R D] (ps exportedParam : ParameterSet D R) :
    ParameterSet D R :=
  { ps with
    blockingTLMEnabledParameter := ParamContainer.absorb maxBlocking
      exportedParam.blockingTLMEnabledParameter ps.blockingTLMEnabledParameter
    approximateDelayParameter := ParamContainer.absorb (· + ·) exportedParam.approximateDelayParameter
      (ParamContainer.newDelays (· * ·) exportedParam.approximateTraversalRateParameter
        ps.approximateDelayParameter) }

/-- `ParameterSet::trim`. -/
def trim [LinearOrder D] [DecidableEq R] (ps : ParameterSet D R) (restriction : SpaceSet) :
    ParameterSet D R where
  blockingTLMEnabledParameter := ps.blockingTLMEnabledParameter.trim restriction.members
  approximateDelayParameter := ps.approximateDelayParameter.trim restriction.members
  approximateTraversalRateParameter := ps.approximateTraversalRateParameter.trim restriction.members

/-! ## The representation invariant -/

/-- Each of the three containers is sorted, well formed and disjoint. -/
structure Sound (ps : ParameterSet D R) : Prop where
  blocking : ps.blockingTLMEnabledParameter.Sound
  delay : ps.approximateDelayParameter.Sound
  rate : ps.approximateTraversalRateParameter.Sound

/-- Some container has a value at the address. -/
def Defines (ps : ParameterSet D R) (a : ℕ) : Prop :=
  valueAt ps.blockingTLMEnabledParameter a ≠ none ∨ valueAt ps.approximateDelayParameter a ≠ none ∨
    valueAt ps.approximateTraversalRateParameter a ≠ none

/-- `kept` has the values of `ps` on the addresses of the restriction, and no others. -/
def RestrictedTo (kept ps : ParameterSet D R) (restriction : SpaceSet) : Prop :=
  ∀ a, (valueAt kept.blockingTLMEnabledParameter a =
      if ∃ s ∈ restriction.members, a ∈ s then valueAt ps.blockingTLMEnabledParameter a else none) ∧
    (valueAt kept.approximateDelayParameter a =
      if ∃ s ∈ restriction.members, a ∈ s then valueAt ps.approximateDelayParameter a else none) ∧
    (valueAt kept.approximateTraversalRateParameter a =
      if ∃ s ∈ restriction.members, a ∈ s then valueAt ps.approximateTraversalRateParameter a else none)

theorem sound_empty : Sound (empty : ParameterSet D R) :=
  ⟨ParamContainer.sound_nil, ParamContainer.sound_nil, ParamContainer.sound_nil⟩

theorem sound_setParameter {ps : ParameterSet D R} (h : Sound ps) {as : AddrSpace}
    (has : as.WellFormed) (param : ModuleParameter D R) : Sound (ps.setParameter as param) := by
  cases param with
  | blockingTLMEnabled v =>
    exact ⟨(ParamContainer.sound_setParameterHelper _ h.blocking has v).1, h.delay, h.rate⟩
  | approximateDelay d =>
    exact ⟨h.blocking, (ParamContainer.sound_setParameterHelper _ h.delay has d).1, h.rate⟩
  | approximateTraversalRate r =>
    exact ⟨h.blocking, h.delay, (ParamContainer.sound_setParameterHelper _ h.rate has r).1⟩

/-- A delay that is set holds on its range, and elsewhere nothing changes. -/
theorem delay_setParameter {ps : ParameterSet D R} (h : Sound ps) {as : AddrSpace} (has : as.WellFormed) (d : D)
    (a : ℕ) :
    valueAt (ps.setParameter as (.approximateDelay d)).approximateDelayParameter a =
      if a ∈ as then some d else valueAt ps.approximateDelayParameter a :=
  ParamContainer.valueAt_setNew h.delay has d a

@[simp] theorem rate_setParameter_delay (ps : ParameterSet D R) (as : AddrSpace) (d : D) :
    (ps.setParameter as (.approximateDelay d)).approximateTraversalRateParameter =
      ps.approximateTraversalRateParameter := rfl

/-- The ranges of the three containers are well formed. They may overlap. -/
structure WellFormed (ps : ParameterSet D R) : Prop where
  blocking : ∀ p ∈ ps.blockingTLMEnabledParameter, p.1.WellFormed
  delay : ∀ p ∈ ps.approximateDelayParameter, p.1.WellFormed
  rate : ∀ p ∈ ps.approximateTraversalRateParameter, p.1.WellFormed

theorem Sound.wellFormed {ps : ParameterSet D R} (h : Sound ps) : WellFormed ps :=
  ⟨h.blocking.wellFormed, h.delay.wellFormed, h.rate.wellFormed⟩

theorem sound_mergeImportedParam [LinearOrder D] {ps imported : ParameterSet D R} (h : Sound ps)
    (hi : WellFormed imported) : Sound (ps.mergeImportedParam imported) :=
  ⟨(ParamContainer.sound_absorb _ h.blocking hi.blocking).1,
    (ParamContainer.sound_absorb _ h.delay hi.delay).1, h.rate⟩

theorem sound_addExportedParam [LinearOrder D] [Add D] [HMul D R D] {ps exported : ParameterSet D R}
    (h : Sound ps) (he : WellFormed exported) : Sound (ps.addExportedParam exported) :=
  ⟨(ParamContainer.sound_absorb _ h.blocking he.blocking).1,
    (ParamContainer.sound_absorb _ (ParamContainer.sound_newDelays _ he.rate h.delay).1 he.delay).1, h.rate⟩

/-- After a merge an address has the stronger blocking mode and the shorter delay. -/
theorem valueAt_mergeImportedParam [LinearOrder D] {ps imported : ParameterSet D R} (h : Sound ps)
    (hi : Sound imported) (a : ℕ) :
    valueAt (ps.mergeImportedParam imported).blockingTLMEnabledParameter a =
        ParamContainer.combine maxBlocking (valueAt ps.blockingTLMEnabledParameter a)
          (valueAt imported.blockingTLMEnabledParameter a) ∧
      valueAt (ps.mergeImportedParam imported).approximateDelayParameter a =
        ParamContainer.combine maxDelay (valueAt ps.approximateDelayParameter a)
          (valueAt imported.approximateDelayParameter a) :=
  ⟨ParamContainer.valueAt_absorb _ h.blocking hi.blocking a, ParamContainer.valueAt_absorb _ h.delay hi.delay a⟩

/-- After an addition an address has the stronger blocking mode, and the scaled delay plus the added one.
-/
theorem valueAt_addExportedParam [LinearOrder D] [Add D] [HMul D R D] {ps exported : ParameterSet D R}
    (h : Sound ps) (he : Sound exported) (a : ℕ) :
    valueAt (ps.addExportedParam exported).blockingTLMEnabledParameter a =
        ParamContainer.combine maxBlocking (valueAt ps.blockingTLMEnabledParameter a)
          (valueAt exported.blockingTLMEnabledParameter a) ∧
      valueAt (ps.addExportedParam exported).approximateDelayParameter a =
        ParamContainer.combine (· + ·)
          ((valueAt ps.approximateDelayParameter a).map
            (ParamContainer.scaled (· * ·) (valueAt exported.approximateTraversalRateParameter a)))
          (valueAt exported.approximateDelayParameter a) := by
  obtain ⟨hsound, -, hval⟩ := ParamContainer.sound_newDelays (fun (d : D) (r : R) => d * r)
    he.rate.wellFormed h.delay
  refine ⟨ParamContainer.valueAt_absorb _ h.blocking he.blocking a, ?_⟩
  refine (ParamContainer.valueAt_absorb _ hsound he.delay a).trans ?_
  rw [hval he.rate.apart]

/-- `trim` keeps a set sound exactly when none of its addresses lies in two members of the
restriction. -/
theorem sound_trim_iff [LinearOrder D] [DecidableEq R] {ps : ParameterSet D R} (h : Sound ps)
    {restriction : SpaceSet} (hwf : ∀ s ∈ restriction.members, s.WellFormed) :
    Sound (ps.trim restriction) ↔
      ∀ a, ps.Defines a → ∀ s ∈ restriction.members, ∀ t ∈ restriction.members, a ∈ s → a ∈ t → s = t := by
  have hb := ParamContainer.sound_trim_iff h.blocking restriction.ordered hwf
  have hd := ParamContainer.sound_trim_iff h.delay restriction.ordered hwf
  have hr := ParamContainer.sound_trim_iff h.rate restriction.ordered hwf
  constructor
  · rintro ⟨hb', hd', hr'⟩ a (ha | ha | ha)
    · exact hb.mp hb' a ha
    · exact hd.mp hd' a ha
    · exact hr.mp hr' a ha
  · intro huniq
    exact ⟨hb.mpr fun a ha => huniq a (Or.inl ha), hd.mpr fun a ha => huniq a (Or.inr (Or.inl ha)),
      hr.mpr fun a ha => huniq a (Or.inr (Or.inr ha))⟩

/-- `trim` keeps exactly the addresses of the restriction, with their values. -/
theorem restrictedTo_trim [LinearOrder D] [DecidableEq R] {ps : ParameterSet D R} (h : Sound ps)
    {restriction : SpaceSet} (hwf : ∀ s ∈ restriction.members, s.WellFormed) :
    (ps.trim restriction).RestrictedTo ps restriction := fun a =>
  ⟨ParamContainer.valueAt_trim h.blocking restriction.ordered hwf a,
    ParamContainer.valueAt_trim h.delay restriction.ordered hwf a,
    ParamContainer.valueAt_trim h.rate restriction.ordered hwf a⟩

end ParameterSet

end Vpsim.Core
