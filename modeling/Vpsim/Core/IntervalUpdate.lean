import Vpsim.Core.ContainerSpec

/-!
# Setting a parameter on a range

`setParameterHelper` calls itself on up to five pieces of the two ranges in conflict, on a vector that
it changes on the way. The source has no bound on this recursion. Here its runs are described without
one, and the run on a sound container is shown to end: the pieces hold fewer addresses than the two
ranges they come from.
-/

namespace Vpsim.Core.ParamContainer

open Vpsim.Lib

variable {V : Type}

mutual

/-- A call of `setParameterHelper` that returns: the container before it, its arguments and the
container it leaves. -/
inductive Sets (pick : V → V → V) : ParamContainer V → AddrSpace → V → ParamContainer V → Prop
  | emplace {pc : ParamContainer V} {as : AddrSpace} {param : V}
      (hfind : pc.find? (fun p => p.1.intersect as) = none) : Sets pick pc as param (sort (pc ++ [(as, param)]))
  | conflict {pc added picked result : ParamContainer V} {as curAs : AddrSpace} {param curParam : V}
      (hfind : pc.find? (fun p => p.1.intersect as) = some (curAs, curParam))
      (hnew : SetsAll pick (pc.eraseP fun p => p.1.intersect as) (as.relativeComplement curAs) param added)
      (hpick : Sets pick added (curAs.intersection as) (pick curParam param) picked)
      (hold : SetsAll pick picked (curAs.relativeComplement as) curParam result) :
      Sets pick pc as param result

/-- A loop of `setParameterHelper` over some pieces that ends. -/
inductive SetsAll (pick : V → V → V) : ParamContainer V → List AddrSpace → V → ParamContainer V → Prop
  | done {pc : ParamContainer V} {param : V} : SetsAll pick pc [] param pc
  | next {pc pc' result : ParamContainer V} {u : AddrSpace} {us : List AddrSpace} {param : V}
      (hset : Sets pick pc u param pc') (hrest : SetsAll pick pc' us param result) :
      SetsAll pick pc (u :: us) param result

end

variable {pick : V → V → V}

/-- What a call leaves is determined by its arguments. -/
theorem Sets.unique {pc pc₁ pc₂ : ParamContainer V} {as : AddrSpace} {param : V}
    (h : Sets pick pc as param pc₁) (h' : Sets pick pc as param pc₂) : pc₁ = pc₂ := by
  refine @Sets.rec V pick (fun pc as param pc₁ _ => ∀ pc₂, Sets pick pc as param pc₂ → pc₁ = pc₂)
    (fun pc us param pc₁ _ => ∀ pc₂, SetsAll pick pc us param pc₂ → pc₁ = pc₂) ?_ ?_ ?_ ?_ _ _ _ _ h pc₂ h'
  · intro pc as param hfind pc₂ h'
    cases h' with
    | emplace => rfl
    | conflict hfind' =>
      rw [hfind] at hfind'
      cases hfind'
  · intro pc added picked result as curAs param curParam hfind _ _ _ hnew hpick hold pc₂ h'
    cases h' with
    | emplace hfind' =>
      rw [hfind] at hfind'
      cases hfind'
    | conflict hfind' hnew' hpick' hold' =>
      rw [hfind] at hfind'
      cases hfind'
      cases hnew _ hnew'
      cases hpick _ hpick'
      exact hold _ hold'
  · intro pc param pc₂ h'
    cases h'
    rfl
  · intro pc pc' result u us param _ _ hset hrest pc₂ h'
    cases h' with
    | next hset' hrest' =>
      cases hset _ hset'
      exact hrest _ hrest'

/-- A loop whose calls return ends, if no call adds more than the addresses of its piece. -/
theorem setsAll_foldl {set : ParamContainer V → AddrSpace → ParamContainer V} {param : V} {bound : ℕ}
    (us : List AddrSpace) (hlight : ∀ n pc, Light n pc → ∀ u ∈ us, Light (n + u.size) (set pc u))
    (hset : ∀ n pc, Light n pc → ∀ u ∈ us, n + u.size < bound → Sets pick pc u param (set pc u)) {n : ℕ}
    {pc : ParamContainer V} (hn : Light n pc) (hbound : n + (us.map AddrSpace.size).sum < bound) :
    SetsAll pick pc us param (us.foldl set pc) := by
  induction us generalizing n pc with
  | nil => exact .done
  | cons u us ih =>
    rw [List.map_cons, List.sum_cons] at hbound
    apply SetsAll.next (hset n pc hn u List.mem_cons_self (by omega))
    exact ih (fun n pc h w hw => hlight n pc h w (List.mem_cons_of_mem _ hw))
      (fun n pc h w hw => hset n pc h w (List.mem_cons_of_mem _ hw))
      (hlight n pc hn u List.mem_cons_self) (by omega)

/-- The recursion ends on every container of well-formed ranges, disjoint or not. -/
theorem sets_setParameterRec (pick : V → V → V) {fuel n : ℕ} {pc : ParamContainer V} (h : Light n pc)
    {as : AddrSpace} (has : as.WellFormed) (param : V) (hfuel : n + as.size < fuel) :
    Sets pick pc as param (setParameterRec pick fuel pc as param) := by
  induction fuel generalizing n pc as param with
  | zero => omega
  | succ fuel ih =>
    cases hfind : pc.find? (fun p => p.1.intersect as) with
    | none =>
      rw [setParameterRec, hfind]
      exact .emplace hfind
    | some p =>
      obtain ⟨curAs, curParam⟩ := p
      obtain ⟨hmeet, hmeet', hcur, herased, hcount⟩ := h.conflict has hfind
      have hnews : ∀ u ∈ as.relativeComplement curAs, u.WellFormed :=
        fun u hu => has.relativeComplement hmeet' hu
      have holds : ∀ u ∈ curAs.relativeComplement as, u.WellFormed :=
        fun u hu => hcur.relativeComplement hmeet hu
      have hadded := herased.foldl (as.relativeComplement curAs)
        (fun n pc hpc u hu => hpc.setParameterRec pick fuel (hnews u hu) param)
      have hpicked := hadded.setParameterRec pick fuel (hcur.intersection has hmeet) (pick curParam param)
      rw [setParameterRec, hfind]
      apply Sets.conflict hfind
      · exact setsAll_foldl _ (fun n pc hpc u hu => hpc.setParameterRec pick fuel (hnews u hu) param)
          (fun n pc hpc u hu hlt => ih hpc (hnews u hu) param hlt) herased (by omega)
      · exact ih hadded (hcur.intersection has hmeet) (pick curParam param) (by omega)
      · exact setsAll_foldl _ (fun n pc hpc u hu => hpc.setParameterRec pick fuel (holds u hu) curParam)
          (fun n pc hpc u hu hlt => ih hpc (holds u hu) curParam hlt) hpicked (by omega)

/-- On a sound container and a well-formed range `setParameterHelper` returns, in one way only. The new
container is sound; on the range it has the picked value where there was one before and the new value
elsewhere, and outside of the range nothing changes. -/
theorem setParameterHelper_pointwise (pick : V → V → V) {pc : ParamContainer V} (h : Sound pc) {as : AddrSpace}
    (has : as.WellFormed) (v : V) :
    (∀ pc', Sets pick pc as v pc' ↔ pc' = setParameterHelper pick pc as v) ∧
      Sound (setParameterHelper pick pc as v) ∧
      ∀ a, valueAt (setParameterHelper pick pc as v) a =
        if a ∈ as then some ((valueAt pc a).elim v fun old => pick old v) else valueAt pc a := by
  have hends : Sets pick pc as v (setParameterHelper pick pc as v) :=
    sets_setParameterRec pick ⟨h.wellFormed, Nat.le_refl _⟩ has v (Nat.lt_succ_self _)
  obtain ⟨hsound, hval⟩ := sound_setParameterHelper pick h has v
  refine ⟨fun pc' => ⟨fun hrun => hrun.unique hends, ?_⟩, hsound, hval⟩
  rintro rfl
  exact hends

/-- A value for the ends of the address space and for a range in the middle. -/
def bothEnds : ParamContainer ℕ := [(⟨0, 9⟩, 1), (⟨20, 29⟩, 2), (⟨40, 2 ^ 64 - 1⟩, 3)]

theorem sound_bothEnds : Sound bothEnds := Sound.of_ordered (by decide) (by decide)

theorem setParameterHelper_bothEnds :
    (∀ pc', Sets max bothEnds ⟨5, 2 ^ 64 - 1⟩ 2 pc' ↔ pc' = setParameterHelper max bothEnds ⟨5, 2 ^ 64 - 1⟩ 2) ∧
      Sound (setParameterHelper max bothEnds ⟨5, 2 ^ 64 - 1⟩ 2) ∧
      ∀ a, valueAt (setParameterHelper max bothEnds ⟨5, 2 ^ 64 - 1⟩ 2) a =
        if a ∈ AddrSpace.mk 5 (2 ^ 64 - 1) then some ((valueAt bothEnds a).elim 2 fun old => max old 2)
        else valueAt bothEnds a :=
  setParameterHelper_pointwise max sound_bothEnds (by decide) 2

end Vpsim.Core.ParamContainer
