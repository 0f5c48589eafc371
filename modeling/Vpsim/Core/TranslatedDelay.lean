import Vpsim.Core.RefreshSpec
import Vpsim.Core.ModifierChain
import Mathlib.Data.Fintype.EquivFin

/-!
# The own delay of a translating module

An intermediate module with an address translator sits in front of one memory-mapped module.
Its own parameters are added to the imported ones before the translation, but they are trimmed
to the address spaces as they are after it. The delay set on such a module reaches the right
addresses only when the translator does not move them. A traversal rate of the module then scales the
imported delay.
-/

namespace Vpsim.Core

open Vpsim.Lib

/-- What a parameter set says inside a space, of a delay and of the other kinds: one delay on
the whole space, nothing outside, no traversal rates. -/
structure ParameterSet.DelayOn {D R : Type} (ps : ParameterSet D R) (space : AddrSpace) (s : D) : Prop where
  sound : ps.Sound
  delay : ∀ a, valueAt ps.approximateDelayParameter a = if a ∈ space then some s else none
  blocking : ∀ a, valueAt ps.blockingTLMEnabledParameter a ≠ none → a ∈ space

namespace Graph

variable {M D R : Type}

/-- An intermediate module `t` with one translator, connected to one memory-mapped module `u`
that has no modifier and exports the delay `s` on its own space. The own parameters of `t` are free. -/
structure Mounted (g : Graph M D R) (t u : M) (offset : ℕ) (hoff : offset < AddrSpace.addrCount)
    (positive : Bool) (s : D) : Prop where
  intermediate : (g t).moduleType = .intermediate
  modifier : (g t).modifier = [.addressTranslator offset hoff positive]
  successors : (g t).successors = [u]
  unconnected : ∀ port ∈ (g t).ports, port.successor = none → port.effectiveParameters = ParameterSet.empty
  intrinsec_sound : (g t).intrinsecParameters.Sound
  memoryMapped : (g u).moduleType = .memoryMapped
  u_modifier : (g u).modifier = []
  u_successors : (g u).successors = []
  u_no_predecessor : ∀ x, u ∉ (g x).predecessors
  u_wellFormed : (g u).ownAddrSpace.WellFormed
  u_exports : (g u).exportedParameters.DelayOn (g u).ownAddrSpace s
  /-- Translating the space does not overflow. -/
  within : (g u).ownAddrSpace.Within
    (ParameterSetModifier.displacement (.addressTranslator offset hoff positive))
    (ParameterSetModifier.displacement (.addressTranslator offset hoff positive))

end Graph

/-! ## What the module imports -/

section Import

variable {D R : Type} {space : AddrSpace} {s : D}

/-- The fields of a set in which the imports of a module with one delay behind it are merged. -/
structure ParameterSet.DelayWithin (ps : ParameterSet D R) (space : AddrSpace) (s : D) : Prop where
  sound : ps.Sound
  delay : ∀ a, valueAt ps.approximateDelayParameter a = none ∨
    valueAt ps.approximateDelayParameter a = if a ∈ space then some s else none
  blocking : ∀ a, valueAt ps.blockingTLMEnabledParameter a ≠ none → a ∈ space

theorem ParameterSet.DelayOn.delayWithin {ps : ParameterSet D R} (h : ps.DelayOn space s) :
    ps.DelayWithin space s :=
  ⟨h.sound, fun a => Or.inr (h.delay a), h.blocking⟩

theorem combine_maxBlocking_ne_none {o n : Option BlockingTLMEnabled}
    (h : ParamContainer.combine ParameterSet.maxBlocking o n ≠ none) : o ≠ none ∨ n ≠ none := by
  cases o with
  | none => exact Or.inr (by simpa using h)
  | some v => exact Or.inl (by simp)

variable [LinearOrder D]

/-- Merging the export once is enough. -/
theorem ParameterSet.DelayWithin.merge {ps imported : ParameterSet D R} (h : ps.DelayWithin space s)
    (hi : imported.DelayOn space s) : (ps.mergeImportedParam imported).DelayOn space s where
  sound := sound_mergeImportedParam h.sound hi.sound.wellFormed
  delay a := by
    rw [(valueAt_mergeImportedParam h.sound hi.sound a).2, hi.delay]
    rcases h.delay a with hnone | hsome
    · rw [hnone, ParamContainer.combine_none_left]
    · rw [hsome]
      split_ifs
      · simp [maxDelay]
      · rfl
  blocking a ha := by
    rw [(valueAt_mergeImportedParam h.sound hi.sound a).1] at ha
    exact (combine_maxBlocking_ne_none ha).elim (h.blocking a) (hi.blocking a)

/-- Merging an empty set changes no value. -/
theorem ParameterSet.DelayWithin.merge_empty {ps : ParameterSet D R} (h : ps.DelayWithin space s) :
    (ps.mergeImportedParam ParameterSet.empty).DelayWithin space s ∧
      (ps.DelayOn space s → (ps.mergeImportedParam ParameterSet.empty).DelayOn space s) := by
  have hval := valueAt_mergeImportedParam h.sound (sound_empty (D := D) (R := R))
  have hsound : (ps.mergeImportedParam ParameterSet.empty).Sound :=
    sound_mergeImportedParam h.sound sound_empty.wellFormed
  have hb : ∀ a, valueAt (ps.mergeImportedParam ParameterSet.empty).blockingTLMEnabledParameter a =
      valueAt ps.blockingTLMEnabledParameter a :=
    fun a => (hval a).1.trans (ParamContainer.combine_none_right _ _)
  have hd : ∀ a, valueAt (ps.mergeImportedParam ParameterSet.empty).approximateDelayParameter a =
      valueAt ps.approximateDelayParameter a :=
    fun a => (hval a).2.trans (ParamContainer.combine_none_right _ _)
  constructor
  · exact ⟨hsound, fun a => by rw [hd]; exact h.delay a, fun a ha => h.blocking a (by rw [← hb]; exact ha)⟩
  · intro hon
    exact ⟨hsound, fun a => (hd a).trans (hon.delay a), fun a ha => h.blocking a (by rw [← hb]; exact ha)⟩

/-- The merge over the ports of a module: each is either connected to the same successor or not
at all. -/
theorem delayOn_merge_ports {M : Type} {exported : ParameterSet D R} (he : exported.DelayOn space s)
    {ports : List (OutPort M D R)}
    (hports : ∀ port ∈ ports, port.effectiveParameters = exported ∨
      port.effectiveParameters = ParameterSet.empty) (ps : ParameterSet D R) (h : ps.DelayWithin space s)
    (hsome : ps.DelayOn space s ∨ ∃ port ∈ ports, port.effectiveParameters = exported) :
    (ports.foldl (fun e port => e.mergeImportedParam port.effectiveParameters) ps).DelayOn space s := by
  induction ports generalizing ps with
  | nil =>
    rcases hsome with hon | ⟨port, hport, -⟩
    · exact hon
    · cases hport
  | cons port ports ih =>
    rw [List.foldl_cons]
    have hrest := fun p hp => hports p (List.mem_cons_of_mem _ hp)
    by_cases heq : port.effectiveParameters = exported
    · have hon := h.merge (heq ▸ he)
      exact ih hrest _ hon.delayWithin (Or.inl hon)
    · have hempty := (hports port List.mem_cons_self).resolve_left heq
      obtain ⟨hwithin, hkeep⟩ := h.merge_empty
      rw [hempty]
      refine ih hrest _ hwithin ?_
      rcases hsome with hon | ⟨p, hp, hpe⟩
      · exact Or.inl (hkeep hon)
      · rcases List.mem_cons.mp hp with rfl | hp
        · exact absurd hpe heq
        · exact Or.inr ⟨p, hp, hpe⟩

end Import

namespace Graph

variable {M D R : Type} [DecidableEq M]

/-- The call that sets the own delay of a module on all addresses. -/
def ownDelay (t : M) (d : D) : Call M D R :=
  .setParameter t AddrSpace.maxRange AddrSpace.maxRange_wellFormed (.approximateDelay d)

/-- The graph with a delay of `t` set on a range, before anything is refreshed. -/
def withOwnDelay (g : Graph M D R) (t : M) (as : AddrSpace) (d : D) : Graph M D R :=
  Function.update g t { g t with
    intrinsecParameters := (g t).intrinsecParameters.setParameter as (.approximateDelay d) }

theorem sameShape_withOwnDelay (g : Graph M D R) (t : M) (as : AddrSpace) (d : D) :
    SameShape g (g.withOwnDelay t as d) := by
  have hself : ∀ x, g.withOwnDelay t as d x = g x ∨ (x = t ∧ g.withOwnDelay t as d x = { g t with
      intrinsecParameters := (g t).intrinsecParameters.setParameter as (.approximateDelay d) }) := by
    intro x
    by_cases hx : x = t
    · subst hx
      exact Or.inr ⟨rfl, Function.update_self _ _ _⟩
    · exact Or.inl (Function.update_of_ne hx _ _)
  constructor
  all_goals
    intro x
    rcases hself x with hx | ⟨rfl, hx⟩
    · rw [hx]
    · rw [hx]
      first | done | rfl

variable [Fintype M]

namespace Mounted

variable {g : Graph M D R} {t u : M} {offset : ℕ} {hoff : offset < AddrSpace.addrCount} {positive : Bool}
  {s : D}

omit [DecidableEq M] [Fintype M] in
theorem ne (h : g.Mounted t u offset hoff positive s) : t ≠ u := by
  rintro rfl
  have := h.intermediate.symm.trans h.memoryMapped
  cases this

/-- The refresh of `t` starts from a graph in which only the own delay of `t` has changed. -/
theorem start_self (g : Graph M D R) (t : M) (as : AddrSpace) (d : D) :
    clearPredecessors (g.withOwnDelay t as d) t t = { g t with
      intrinsecParameters := (g t).intrinsecParameters.setParameter as (.approximateDelay d) } := by
  rw [clearPredecessors_self, withOwnDelay, Function.update_self]

theorem start_successor (h : g.Mounted t u offset hoff positive s) (as : AddrSpace) (d : D) :
    clearPredecessors (g.withOwnDelay t as d) t u = g u := by
  rw [clearPredecessors_of_not_pred, withOwnDelay, Function.update_of_ne h.ne.symm]
  intro x
  rw [(sameShape_withOwnDelay g t as d).predecessors]
  exact h.u_no_predecessor x

/-- The module may use the translated space of its successor. -/
theorem getAllowedSpaces_eq (h : g.Mounted t u offset hoff positive s) :
    ∃ allowed, getAllowedSpaces g t = .ok allowed ∧
      allowed.members = [(g u).ownAddrSpace.moved
        (ParameterSetModifier.displacement (.addressTranslator offset hoff positive))] := by
  obtain ⟨n, hn⟩ : ∃ n, Fintype.card M = n + 2 := by
    have hcard : 1 < Fintype.card M := Fintype.one_lt_card_iff.mpr ⟨t, u, h.ne⟩
    exact ⟨Fintype.card M - 2, by omega⟩
  have hsingle := ParameterSetModifier.applySpaces_singleton [.addressTranslator offset hoff positive]
    (k := (g u).ownAddrSpace) h.u_wellFormed.has64Bits ?_
  · obtain ⟨image, himage, hmem⟩ := hsingle
    rw [ParameterSetModifier.total, ParameterSetModifier.total, Int.add_zero] at hmem
    refine ⟨image, ?_, hmem⟩
    have hne : u ∉ [t] := by simpa using h.ne.symm
    have hnone : ∀ spaces, ParameterSetModifier.applySpaces spaces [] = .ok spaces := fun _ => rfl
    have hinsert : (SpaceSet.insert (g u).ownAddrSpace SpaceSet.empty).members.foldl
        (fun set as => set.insert as) SpaceSet.empty = SpaceSet.insert (g u).ownAddrSpace SpaceSet.empty := rfl
    simp only [getAllowedSpaces, hn, getAllowedSpacesRec, h.successors, h.intermediate, h.modifier,
      h.u_successors, h.memoryMapped, h.u_modifier, List.foldlM_cons, List.foldlM_nil, List.nil_append, hne,
      if_false, if_true, pure, Except.pure, bind, Except.bind, hnone, reduceCtorEq, hinsert, himage, Except.map]
  · have hzero := (h.u_wellFormed.has64Bits).within_zero
    have hin := h.within
    simp only [AddrSpace.Within, ParameterSetModifier.lowest, ParameterSetModifier.highest] at hzero hin ⊢
    omega

end Mounted

/-- Own parameters with a delay on a range, once they are trimmed to one space inside it. -/
theorem delayOn_trim_setParameter {D R : Type} [LinearOrder D] [DecidableEq R] {ps : ParameterSet D R}
    (hs : ps.Sound) {as : AddrSpace} (has : as.WellFormed) (d : D) {allowed : SpaceSet} {space : AddrSpace} (hmem : allowed.members = [space])
    (hspace : space.WellFormed) (hin : ∀ a ∈ space, a ∈ as) :
    ((ps.setParameter as (.approximateDelay d)).trim allowed).DelayOn space d ∧
      ∀ a, valueAt ((ps.setParameter as (.approximateDelay d)).trim allowed).approximateTraversalRateParameter a =
        if a ∈ space then valueAt ps.approximateTraversalRateParameter a else none := by
  have hset := ParameterSet.sound_setParameter hs has (.approximateDelay d)
  have hwf : ∀ k ∈ allowed.members, k.WellFormed := by
    rw [hmem]
    exact fun k hk => List.mem_singleton.mp hk ▸ hspace
  have hex : ∀ a, (∃ k ∈ allowed.members, a ∈ k) ↔ a ∈ space := by
    intro a
    rw [hmem]
    simp
  have hval := ParameterSet.restrictedTo_trim hset hwf
  refine ⟨⟨?_, fun a => ?_, fun a ha => ?_⟩, fun a => ?_⟩
  · rw [ParameterSet.sound_trim_iff hset hwf, hmem]
    intro a _ k hk l hl _ _
    rw [List.mem_singleton.mp hk, List.mem_singleton.mp hl]
  · rw [(hval a).2.1]
    simp only [hex]
    split_ifs with ha
    · rw [ParameterSet.delay_setParameter hs has, if_pos (hin a ha)]
    · rfl
  · rw [(hval a).1] at ha
    simp only [hex] at ha
    by_contra hout
    rw [if_neg hout] at ha
    exact ha rfl
  · rw [(hval a).2.2, ParameterSet.rate_setParameter_delay]
    simp only [hex]

/-- What two delays add up to when one is set on `space`, and the other on `other` beside the traversal
rate `rate`. -/
theorem delay_addExportedParam {D R : Type} [LinearOrder D] [Add D] [HMul D R D]
    {ps own : ParameterSet D R} {space other : AddrSpace} {s d : D} {rate : ℕ → Option R} (h : ps.DelayOn space s)
    (ho : own.DelayOn other d)
    (hrate : ∀ a, valueAt own.approximateTraversalRateParameter a = if a ∈ other then rate a else none) (a : ℕ) :
    valueAt (ps.addExportedParam own).approximateDelayParameter a =
      if a ∈ space then
        (if a ∈ other then some (ParamContainer.scaled (· * ·) (rate a) s + d) else some s)
      else if a ∈ other then some d else none := by
  rw [(ParameterSet.valueAt_addExportedParam h.sound ho.sound a).2, h.delay, ho.delay, hrate]
  split_ifs <;> rfl

theorem run_setDelay {M D R : Type} [DecidableEq M] [Fintype M] [LinearOrder D] [Add D] [HMul D R D]
    [DecidableEq R] (g : Graph M D R) (t : M) (as : AddrSpace) (has : as.WellFormed) (d : D) (depth : ℕ) :
    (Call.setParameter t as has (.approximateDelay d)).run depth g =
      propagate refreshStep .outOfFuel depth t (clearPredecessors (g.withOwnDelay t as d) t) := rfl

/-- The effect of the call that the module promises: the refresh of `t` throws nothing, the call
returns with it when no predecessor has to follow, and the exported delay is the sum of the two
delays at every translated address of the space of `u` and undefined elsewhere. -/
def AddsOwnDelay {M D R : Type} [DecidableEq M] [Fintype M] [LinearOrder D] [Add D] [HMul D R D] [DecidableEq R]
    (g : Graph M D R) (t u : M) (offset : ℕ) (positive : Bool) (s d : D) : Prop :=
  ∃ g' next, refreshStep t (clearPredecessors (g.withOwnDelay t AddrSpace.maxRange d) t) = .ok (g', next) ∧
    (next = [] → ∀ depth, (ownDelay t d).run (depth + 1) g = .ok g') ∧
    (∀ a ∈ (g u).ownAddrSpace, valueAt (g' t).exportedParameters.approximateDelayParameter
      (ParameterSetModifier.shift offset positive a) = some (s + d)) ∧
    ∀ x, (∀ a ∈ (g u).ownAddrSpace, x ≠ ParameterSetModifier.shift offset positive a) →
      valueAt (g' t).exportedParameters.approximateDelayParameter x = none

/-- Where `t` has a traversal rate of its own, it scales the delay of `u` to one that gives the same sum. -/
def KeepsDelay {M D R : Type} [Add D] [HMul D R D] (g : Graph M D R) (t u : M) (s d : D) : Prop :=
  ∀ a ∈ (g u).ownAddrSpace, ParamContainer.scaled (· * ·)
    (valueAt (g t).intrinsecParameters.approximateTraversalRateParameter a) s + d = s + d

namespace Mounted

variable {M D R : Type} [DecidableEq M] [Fintype M] [LinearOrder D] [Add D] [HMul D R D] [DecidableEq R]
  {g : Graph M D R} {t u : M} {offset : ℕ} {hoff : offset < AddrSpace.addrCount} {positive : Bool} {s : D}

omit [DecidableEq M] [Fintype M] [LinearOrder D] [Add D] [HMul D R D] [DecidableEq R] in
theorem space_moved_wellFormed (h : g.Mounted t u offset hoff positive s) :
    ((g u).ownAddrSpace.moved
      (ParameterSetModifier.displacement (.addressTranslator offset hoff positive))).WellFormed := by
  have hin := h.within
  have hle := h.u_wellFormed.base_le_end
  refine ⟨?_, (AddrSpace.has64Bits_moved hin).2⟩
  simp only [AddrSpace.Within, AddrSpace.moved] at hin ⊢
  omega

omit [LinearOrder D] [Add D] [HMul D R D] [DecidableEq R] in
/-- Each port of `t` either has read the export of `u` or has never been connected, and one of
them is connected. -/
theorem effective_refreshed [LinearOrder D] [DecidableEq R] (h : g.Mounted t u offset hoff positive s)
    (as : AddrSpace) (d : D) (allowed : SpaceSet) :
    (∀ port ∈ (refreshed (clearPredecessors (g.withOwnDelay t as d) t) t allowed).ports,
        port.effectiveParameters = (g u).exportedParameters ∨
          port.effectiveParameters = ParameterSet.empty) ∧
      ∃ port ∈ (refreshed (clearPredecessors (g.withOwnDelay t as d) t) t allowed).ports,
        port.effectiveParameters = (g u).exportedParameters := by
  have hports : (clearPredecessors (g.withOwnDelay t as d) t t).ports = (g t).ports := by
    rw [start_self]
  simp only [refreshed, hports, List.mem_map, forall_exists_index, and_imp, forall_apply_eq_imp_iff₂,
    exists_exists_and_eq_and]
  constructor
  · intro port hport
    cases hsucc : port.successor with
    | none => exact Or.inr (h.unconnected port hport hsucc)
    | some x =>
      have hx : x ∈ (g t).successors := List.mem_filterMap.mpr ⟨port, hport, hsucc⟩
      rw [h.successors, List.mem_singleton] at hx
      subst hx
      left
      dsimp only
      rw [h.start_successor as d]
  · have hu : u ∈ (g t).successors := by
      rw [h.successors]
      exact List.mem_cons_self
    obtain ⟨port, hport, hsucc⟩ := List.mem_filterMap.mp hu
    refine ⟨port, hport, ?_⟩
    rw [hsucc]
    dsimp only
    rw [h.start_successor as d]

/-- The parameters that `t` would export before its modifier is applied: its own delay is set on
the translated space, the imported one on the space itself. -/
theorem exists_before (h : g.Mounted t u offset hoff positive s) {as : AddrSpace} (has : as.WellFormed)
    (hall : ∀ {k : AddrSpace} {a : ℕ}, k.WellFormed → a ∈ k → a ∈ as) (d : D) {δ : ℤ}
    (hδ : δ = ParameterSetModifier.displacement (.addressTranslator offset hoff positive)) :
    ∃ allowed, ∃ before : ParameterSet D R, before.Sound ∧
      getAllowedSpaces (clearPredecessors (g.withOwnDelay t as d) t) t = .ok allowed ∧
      (refreshed (clearPredecessors (g.withOwnDelay t as d) t) t allowed).exportOf =
        (if ∀ k ∈ before.keys, k.Within δ δ then .ok (before.moved δ) else .error .overflowError) ∧
      ∀ a, valueAt before.approximateDelayParameter a =
        if a ∈ (g u).ownAddrSpace then
          (if a ∈ (g u).ownAddrSpace.moved δ then
            some (ParamContainer.scaled (· * ·)
              (valueAt (g t).intrinsecParameters.approximateTraversalRateParameter a) s + d)
          else some s)
        else if a ∈ (g u).ownAddrSpace.moved δ then some d else none := by
  obtain ⟨allowed, hallowed, hmem⟩ := h.getAllowedSpaces_eq
  rw [← hδ] at hmem
  rw [← getAllowedSpaces_congr ((sameShape_withOwnDelay g t as d).trans (sameShape_clearPredecessors _ t))] at hallowed
  have hspace : ((g u).ownAddrSpace.moved δ).WellFormed := hδ ▸ h.space_moved_wellFormed
  obtain ⟨hown, hrate⟩ := delayOn_trim_setParameter h.intrinsec_sound has d hmem hspace
    fun a ha => hall hspace ha
  obtain ⟨hports, hconnected⟩ := h.effective_refreshed as d allowed
  have hmerged := delayOn_merge_ports h.u_exports hports ParameterSet.empty
    ⟨ParameterSet.sound_empty, fun a => Or.inl rfl, fun a ha => absurd rfl ha⟩ (Or.inr hconnected)
  have hsound := ParameterSet.sound_addExportedParam hmerged.sound hown.sound.wellFormed
  refine ⟨allowed, _, hsound, hallowed, ?_, delay_addExportedParam hmerged hown hrate⟩
  have hintrinsec : (refreshed (clearPredecessors (g.withOwnDelay t as d) t) t allowed).intrinsecParameters =
      ((g t).intrinsecParameters.setParameter as (.approximateDelay d)).trim allowed := by
    simp only [refreshed, start_self]
  have hmodifier : (refreshed (clearPredecessors (g.withOwnDelay t as d) t) t allowed).modifier =
      [.addressTranslator offset hoff positive] := by
    simp only [refreshed, start_self, h.modifier]
  rw [VpsimModule.exportOf, hintrinsec, hmodifier, hδ, ParameterSetModifier.apply_singleton]
  exact ParameterSetModifier.applyNonRecursive_eq _ hsound.has64Bits

omit [DecidableEq M] [Fintype M] [LinearOrder D] [Add D] [HMul D R D] [DecidableEq R] in
/-- The translator moves an address of the space by its displacement, without wrapping. -/
theorem shift_eq (h : g.Mounted t u offset hoff positive s) {a : ℕ} (ha : a ∈ (g u).ownAddrSpace) :
    (ParameterSetModifier.shift offset positive a : ℤ) =
      a + ParameterSetModifier.displacement (.addressTranslator offset hoff positive) := by
  have hin := h.within
  have hend := h.u_wellFormed.end_lt
  rw [AddrSpace.mem_def] at ha
  simp only [AddrSpace.Within] at hin
  have hspec := (ParameterSetModifier.shift_spec hoff positive (a := a) (by omega) rfl).2 (by omega)
  rw [hspec]
  omega

omit [DecidableEq M] [Fintype M] [LinearOrder D] [Add D] [HMul D R D] [DecidableEq R] in
/-- A translator that moves addresses moves one of them out of the space. -/
theorem exists_moved_out (h : g.Mounted t u offset hoff positive s) (hne : offset ≠ 0) {δ : ℤ}
    (hδ : δ = ParameterSetModifier.displacement (.addressTranslator offset hoff positive)) :
    ∃ b, b ∈ (g u).ownAddrSpace.moved δ ∧ b ∉ (g u).ownAddrSpace := by
  have hin := h.within
  have hle := h.u_wellFormed.base_le_end
  rw [← hδ] at hin
  simp only [AddrSpace.Within] at hin
  cases positive with
  | true =>
    rw [ParameterSetModifier.displacement, if_pos rfl] at hδ
    refine ⟨((g u).ownAddrSpace.baseAddress + δ).toNat, ?_⟩
    simp only [AddrSpace.mem_def, AddrSpace.moved]
    omega
  | false =>
    rw [ParameterSetModifier.displacement, if_neg Bool.false_ne_true] at hδ
    refine ⟨((g u).ownAddrSpace.endAddress + δ).toNat, ?_⟩
    simp only [AddrSpace.mem_def, AddrSpace.moved]
    omega

/-- Behind a translator that moves addresses, the own delay does not reach the right addresses: an
address of the translated space outside the space gets it alone, and is translated again. -/
theorem not_addsOwnDelay (h : g.Mounted t u offset hoff positive s) (d : D) (hne : offset ≠ 0) :
    ¬ g.AddsOwnDelay t u offset positive s d := by
  rintro ⟨g', next, hstep, -, -, hnone⟩
  obtain ⟨δ, hδ⟩ : ∃ δ, δ = ParameterSetModifier.displacement (.addressTranslator offset hoff positive) := ⟨_, rfl⟩
  obtain ⟨allowed, before, hsound, hallowed, hexport, hval⟩ :=
    h.exists_before AddrSpace.maxRange_wellFormed (fun hk ha => AddrSpace.mem_maxRange hk ha) d hδ
  obtain ⟨allowed', exported, hallowed', hexported, rfl, -⟩ := refreshStep_eq_ok hstep
  rw [hallowed] at hallowed'
  obtain rfl := Except.ok.inj hallowed'
  rw [hexport] at hexported
  split_ifs at hexported with hwithin
  obtain rfl := Except.ok.inj hexported
  rw [Function.update_self] at hnone
  have hdelay := (ParameterSet.forall_mem_keys.mp hwithin).2.1
  obtain ⟨b, hb, hbout⟩ := h.exists_moved_out hne hδ
  have hbval := hval b
  rw [if_neg hbout, if_pos hb] at hbval
  obtain ⟨k, hk, hbk⟩ := hsound.delay.apart.valueAt_eq_some.mp hbval
  have hbδ : 0 ≤ (b : ℤ) + δ := by
    have hkin := hdelay _ hk
    simp only [AddrSpace.Within] at hkin
    rw [AddrSpace.mem_def] at hbk
    omega
  have hx := hnone ((b : ℤ) + δ).toNat fun a ha heq => by
    have hshift := h.shift_eq ha
    rw [← hδ] at hshift
    have hab : a = b := by omega
    exact hbout (hab ▸ ha)
  dsimp only [ParameterSet.moved] at hx
  rw [ParamContainer.valueAt_moved hdelay, if_pos (by omega),
    show ((((b : ℤ) + δ).toNat : ℤ) - δ).toNat = b by omega, hbval] at hx
  cases hx

/-- Behind a translator that moves nothing, it does exactly if the own traversal rates of the module leave the
delay as it is. -/
theorem addsOwnDelay_iff_of_zero (h : g.Mounted t u offset hoff positive s) (d : D) (hzero : offset = 0) :
    g.AddsOwnDelay t u offset positive s d ↔ g.KeepsDelay t u s d := by
  obtain ⟨δ, hδ⟩ : ∃ δ, δ = ParameterSetModifier.displacement (.addressTranslator offset hoff positive) := ⟨_, rfl⟩
  obtain ⟨allowed, before, hsound, hallowed, hexport, hval⟩ :=
    h.exists_before AddrSpace.maxRange_wellFormed (fun hk ha => AddrSpace.mem_maxRange hk ha) d hδ
  have hδ0 : δ = 0 := by
    rw [hδ, ParameterSetModifier.displacement, hzero]
    cases positive <;> rfl
  have hwithin : ∀ k ∈ before.keys, k.Within δ δ := fun k hk => by
    rw [hδ0]
    exact (hsound.has64Bits k hk).within_zero
  have hshift : ∀ a ∈ (g u).ownAddrSpace, ParameterSetModifier.shift offset positive a = a := by
    intro a ha
    have := h.shift_eq ha
    rw [← hδ] at this
    omega
  rw [if_pos hwithin] at hexport
  have hstep := refreshStep_of_ok hallowed hexport
  have hinside (a : ℕ) (ha : a ∈ (g u).ownAddrSpace) : valueAt (before.moved δ).approximateDelayParameter a =
      some (ParamContainer.scaled (· * ·)
        (valueAt (g t).intrinsecParameters.approximateTraversalRateParameter a) s + d) := by
    rw [hδ0, ParameterSet.moved_zero, hval, hδ0, AddrSpace.moved_zero, if_pos ha, if_pos ha]
  constructor
  · rintro ⟨g', next, hstep', -, hsum, -⟩ a ha
    rw [hstep] at hstep'
    obtain ⟨rfl, -⟩ := Prod.mk.inj (Except.ok.inj hstep')
    have ha' := hsum a ha
    rw [Function.update_self, hshift a ha] at ha'
    exact Option.some.inj ((hinside a ha).symm.trans ha')
  · intro hkeep
    refine ⟨_, _, hstep, ?_, ?_, ?_⟩
    · intro hnext depth
      rw [ownDelay, run_setDelay, propagate, hstep, hnext]
      rfl
    · intro a ha
      rw [Function.update_self, hshift a ha]
      exact (hinside a ha).trans (congrArg some (hkeep a ha))
    · intro x hx
      have hout : x ∉ (g u).ownAddrSpace := fun hin => hx x hin (hshift x hin).symm
      rw [Function.update_self]
      dsimp only
      rw [hδ0, ParameterSet.moved_zero, hval, hδ0, AddrSpace.moved_zero, if_neg hout, if_neg hout]

/-- The own delay reaches the right addresses exactly when the translator does not move them and the own
traversal rates of the module leave the imported delay as it is. -/
theorem addsOwnDelay_iff (h : g.Mounted t u offset hoff positive s) (d : D) :
    g.AddsOwnDelay t u offset positive s d ↔ offset = 0 ∧ g.KeepsDelay t u s d := by
  by_cases hzero : offset = 0
  · rw [h.addsOwnDelay_iff_of_zero d hzero, and_iff_right hzero]
  · exact iff_of_false (h.not_addsOwnDelay d hzero) fun hcond => hzero hcond.1

end Mounted

/-! ## A memory behind a translator -/

theorem memorySpace_wellFormed : (AddrSpace.mk 0x100 0x1ff).WellFormed := by decide

/-- An intermediate module with one port, and a memory. -/
def translatorConfig : Bool → ModuleConfig
  | false => ⟨.intermediate, AddrSpace.maxRange, AddrSpace.maxRange_wellFormed, 1⟩
  | true => ⟨.memoryMapped, ⟨0x100, 0x1ff⟩, memorySpace_wellFormed, 0⟩

/-- The calls that connect the two, add the translator and set the delay of the memory. -/
def translatorCalls (offset : ℕ) (hoff : offset < AddrSpace.addrCount) : List (Call Bool ℕ ℕ) :=
  [.addSuccessor false true 0, .addParameterSetModifier false (.addressTranslator offset hoff false),
   .setParameter true ⟨0x100, 0x1ff⟩ memorySpace_wellFormed (.approximateDelay 5)]

/-- The fields of the two modules that matter, after these calls. -/
def TranslatorFields (offset : ℕ) (hoff : offset < AddrSpace.addrCount) (g : Graph Bool ℕ ℕ) : Prop :=
  ((g false).moduleType = .intermediate ∧ (g false).modifier = [.addressTranslator offset hoff false] ∧
    (g false).successors = [true] ∧ (g false).ports.all (fun port => port.successor.isSome) = true ∧
    (g false).intrinsecParameters = ParameterSet.empty) ∧
  ((g true).moduleType = .memoryMapped ∧ (g true).modifier = [] ∧ (g true).successors = [] ∧
    (g true).ownAddrSpace = ⟨0x100, 0x1ff⟩ ∧
    (g true).exportedParameters = ⟨[], [(⟨0x100, 0x1ff⟩, 5)], []⟩) ∧
  ∀ x, true ∉ (g x).predecessors

instance (offset : ℕ) (hoff : offset < AddrSpace.addrCount) (g : Graph Bool ℕ ℕ) :
    Decidable (TranslatorFields offset hoff g) :=
  inferInstanceAs (Decidable (_ ∧ _ ∧ _))

theorem mounted_of_fields {offset : ℕ} (hoff : offset < AddrSpace.addrCount) {g : Graph Bool ℕ ℕ}
    (h : TranslatorFields offset hoff g) (hwithin : (AddrSpace.mk 0x100 0x1ff).Within (offset : ℤ) (offset : ℤ)) :
    g.Mounted false true offset hoff false 5 := by
  obtain ⟨⟨htype, hmod, hsucc, hports, hintr⟩, ⟨hutype, humod, husucc, huown, huexp⟩, hpred⟩ := h
  refine ⟨htype, hmod, hsucc, ?_, ?_, hutype, humod, husucc, hpred, ?_, ?_, ?_⟩
  · intro port hport hnone
    have := List.all_eq_true.mp hports port hport
    rw [hnone] at this
    cases this
  · rw [hintr]
    exact ParameterSet.sound_empty
  · rw [huown]
    exact memorySpace_wellFormed
  · rw [huown, huexp]
    refine ⟨⟨ParamContainer.sound_nil, ?_, ParamContainer.sound_nil⟩, fun a => ?_, fun a ha => absurd rfl ha⟩
    · refine ParamContainer.Sound.of_ordered ?_ (List.pairwise_singleton _ _)
      intro p hp
      obtain rfl := List.mem_singleton.mp hp
      exact memorySpace_wellFormed
    · rw [valueAt, valuesAt_cons]
      split_ifs <;> rfl
  · rw [huown]
    exact hwithin

/-- After the calls the module and the memory are mounted, and the module has no traversal rate. -/
theorem exists_mounted {offset : ℕ} (hoff : offset < AddrSpace.addrCount)
    (hrun : returnsWith (fun g => decide (TranslatorFields offset hoff g))
      (Call.runAll 3 (fun m => (translatorConfig m).construct) (translatorCalls offset hoff)) = true)
    (hwithin : (AddrSpace.mk 0x100 0x1ff).Within (offset : ℤ) (offset : ℤ)) :
    ∃ g : Graph Bool ℕ ℕ,
      Call.runAll 3 (fun m => (translatorConfig m).construct) (translatorCalls offset hoff) = .ok g ∧
        g.Mounted false true offset hoff false 5 ∧ g.KeepsDelay false true 5 3 := by
  obtain ⟨g, hg, hfields⟩ := exists_ok_of_returnsWith hrun
  have hmounted := mounted_of_fields hoff (of_decide_eq_true hfields) hwithin
  have hintr : (g false).intrinsecParameters = ParameterSet.empty := (of_decide_eq_true hfields).1.2.2.2.2
  refine ⟨g, hg, hmounted, fun a _ => ?_⟩
  rw [hintr]
  rfl

theorem zero_lt_addrCount : 0 < AddrSpace.addrCount := by decide

/-- Behind a translator with offset zero a delay of three is added to the delay of the memory. -/
theorem exists_addsOwnDelay :
    ∃ g : Graph Bool ℕ ℕ, Call.runAll 3 (fun m => (translatorConfig m).construct)
        (translatorCalls 0 zero_lt_addrCount) = .ok g ∧ g.AddsOwnDelay false true 0 false 5 3 := by
  obtain ⟨g, hrun, hg, hkeeps⟩ := exists_mounted zero_lt_addrCount (by decide +kernel) (by decide)
  exact ⟨g, hrun, (hg.addsOwnDelay_iff 3).mpr ⟨rfl, hkeeps⟩⟩

/-- Behind a translator that moves addresses up by sixteen it is not. -/
theorem exists_not_addsOwnDelay :
    ∃ g : Graph Bool ℕ ℕ, Call.runAll 3 (fun m => (translatorConfig m).construct)
        (translatorCalls 16 ParameterSetModifier.sixteen_lt) = .ok g ∧
      g.Mounted false true 16 ParameterSetModifier.sixteen_lt false 5 ∧
      ¬ g.AddsOwnDelay false true 16 false 5 3 := by
  obtain ⟨g, hrun, hg, -⟩ := exists_mounted ParameterSetModifier.sixteen_lt (by decide +kernel) (by decide)
  exact ⟨g, hrun, hg, hg.not_addsOwnDelay 3 (by decide)⟩

end Graph

end Vpsim.Core
