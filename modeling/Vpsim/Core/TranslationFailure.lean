import Vpsim.Core.ModifierChain
import Vpsim.Lib.Run

/-!
# What a translation that throws leaves behind

A chain of translators changes the parameter set in place, one translator after the other and, within a
translator, one container after the other. Each container is translated into a new one, which replaces it
only when all of its ranges fit. Nothing takes the earlier replacements back.
-/

namespace Vpsim.Core

open Vpsim.Lib

namespace ParamContainer

/-- Every range of a container moved by a signed amount. -/
def moved {V : Type} (d : ℤ) (pc : ParamContainer V) : ParamContainer V := pc.map fun p => (p.1.moved d, p.2)

theorem moved_eq_self_iff {V : Type} {d : ℤ} {pc : ParamContainer V} (h : ∀ p ∈ pc, p.1.Within d d) :
    pc.moved d = pc ↔ pc = [] ∨ d = 0 := by
  constructor
  · intro heq
    cases pc with
    | nil => exact Or.inl rfl
    | cons p rest =>
      have hp := h p List.mem_cons_self
      have hbase := congrArg (fun q : AddrSpace × V => q.1.baseAddress) (List.cons.inj heq).1
      simp only [AddrSpace.moved] at hbase
      unfold AddrSpace.Within at hp
      exact Or.inr (by omega)
  · rintro (rfl | rfl)
    · rfl
    · simp only [moved, AddrSpace.moved_zero, List.map_id']

theorem moved_moved {V : Type} {d e : ℤ} {pc : ParamContainer V} (h : ∀ p ∈ pc, p.1.Within d d) :
    (pc.moved d).moved e = pc.moved (d + e) := by
  rw [moved, moved, moved, List.map_map]
  apply List.map_congr_left
  intro p hp
  exact Prod.ext (AddrSpace.moved_moved (h p hp)) rfl

end ParamContainer

namespace ParameterSet

variable {D R : Type}

/-- The three containers moved, each by an amount of its own. -/
def movedBy (b d r : ℤ) (ps : ParameterSet D R) : ParameterSet D R where
  blockingTLMEnabledParameter := ps.blockingTLMEnabledParameter.moved b
  approximateDelayParameter := ps.approximateDelayParameter.moved d
  approximateTraversalRateParameter := ps.approximateTraversalRateParameter.moved r

/-- Each container is empty or has come back to where it was. -/
def InPlace (b d r : ℤ) (ps : ParameterSet D R) : Prop :=
  (ps.blockingTLMEnabledParameter = [] ∨ b = 0) ∧ (ps.approximateDelayParameter = [] ∨ d = 0) ∧
    (ps.approximateTraversalRateParameter = [] ∨ r = 0)

theorem movedBy_eq_self_iff {b d r : ℤ} {ps : ParameterSet D R}
    (hb : ∀ p ∈ ps.blockingTLMEnabledParameter, p.1.Within b b)
    (hd : ∀ p ∈ ps.approximateDelayParameter, p.1.Within d d)
    (hr : ∀ p ∈ ps.approximateTraversalRateParameter, p.1.Within r r) :
    ps.movedBy b d r = ps ↔ ps.InPlace b d r := by
  rw [InPlace, ← ParamContainer.moved_eq_self_iff hb, ← ParamContainer.moved_eq_self_iff hd,
    ← ParamContainer.moved_eq_self_iff hr]
  obtain ⟨b', d', r'⟩ := ps
  rw [movedBy, ParameterSet.mk.injEq]

/-- Moving the three containers together and then each by an amount of its own moves each by the sum. -/
theorem movedBy_moved {t b d r : ℤ} {ps : ParameterSet D R}
    (hb : ∀ p ∈ ps.blockingTLMEnabledParameter, p.1.Within t t)
    (hd : ∀ p ∈ ps.approximateDelayParameter, p.1.Within t t)
    (hr : ∀ p ∈ ps.approximateTraversalRateParameter, p.1.Within t t) :
    (ps.moved t).movedBy b d r = ps.movedBy (t + b) (t + d) (t + r) := by
  rw [movedBy, movedBy, ParameterSet.mk.injEq]
  exact ⟨ParamContainer.moved_moved hb, ParamContainer.moved_moved hd, ParamContainer.moved_moved hr⟩

end ParameterSet

namespace ParameterSetModifier

open AddrSpace (Within Has64Bits)

variable {V D R : Type}

/-- `translate` of `applyNonRecursive`: the container is replaced after its last range is translated. -/
def translateInPlace (offset : ℕ) (positive : Bool) (container : ParameterSet D R → ParamContainer V)
    (replace : ParamContainer V → ParameterSet D R → ParameterSet D R) :
    EStateM Failure (ParameterSet D R) PUnit := fun ps =>
  match translateContainer (translate offset positive) (container ps) with
  | .ok newContainer => .ok ⟨⟩ (replace newContainer ps)
  | .error e => .error e ps

/-- `applyNonRecursive` on a parameter set, with what it leaves when it throws. -/
def applyNonRecursiveInPlace : ParameterSetModifier → EStateM Failure (ParameterSet D R) PUnit
  | .neutral => pure ⟨⟩
  | .addressTranslator offset _ positive => do
    translateInPlace offset positive (fun ps => ps.blockingTLMEnabledParameter)
      fun pc ps => { ps with blockingTLMEnabledParameter := pc }
    translateInPlace offset positive (fun ps => ps.approximateDelayParameter)
      fun pc ps => { ps with approximateDelayParameter := pc }
    translateInPlace offset positive (fun ps => ps.approximateTraversalRateParameter)
      fun pc ps => { ps with approximateTraversalRateParameter := pc }

/-- `ParameterSetModifier::apply` on a parameter set, with what it leaves when it throws. -/
def applyInPlace : List ParameterSetModifier → EStateM Failure (ParameterSet D R) PUnit
  | [] => pure ⟨⟩
  | m :: previous => do
    applyInPlace previous
    m.applyNonRecursiveInPlace

/-- How far the containers of a set have been moved when a modifier finds one that does not fit: the set
had been moved by `t` before, and the containers in front of that one have been moved once more. -/
inductive StopsAt (m : ParameterSetModifier) (ps : ParameterSet D R) (t : ℤ) : ℤ → ℤ → ℤ → Prop
  | blocking (hno : ¬ ∀ p ∈ ps.blockingTLMEnabledParameter, p.1.Within m.displacement m.displacement) :
      StopsAt m ps t t t t
  | delay (hb : ∀ p ∈ ps.blockingTLMEnabledParameter, p.1.Within m.displacement m.displacement)
      (hno : ¬ ∀ p ∈ ps.approximateDelayParameter, p.1.Within m.displacement m.displacement) :
      StopsAt m ps t (t + m.displacement) t t
  | rate (hb : ∀ p ∈ ps.blockingTLMEnabledParameter, p.1.Within m.displacement m.displacement)
      (hd : ∀ p ∈ ps.approximateDelayParameter, p.1.Within m.displacement m.displacement)
      (hno : ¬ ∀ p ∈ ps.approximateTraversalRateParameter, p.1.Within m.displacement m.displacement) :
      StopsAt m ps t (t + m.displacement) (t + m.displacement) t

/-! ## One translator -/

theorem translateInPlace_ok {offset : ℕ} (hoff : offset < AddrSpace.addrCount) {positive : Bool}
    {container : ParameterSet D R → ParamContainer V} {replace : ParamContainer V → ParameterSet D R → ParameterSet D R}
    {ps : ParameterSet D R} {pc : ParamContainer V} (hget : container ps = pc) (hpc : ∀ p ∈ pc, p.1.Has64Bits)
    (hin : ∀ p ∈ pc, p.1.Within (displacement (.addressTranslator offset hoff positive))
      (displacement (.addressTranslator offset hoff positive))) :
    translateInPlace offset positive container replace ps =
      .ok ⟨⟩ (replace (pc.moved (displacement (.addressTranslator offset hoff positive))) ps) := by
  rw [translateInPlace, hget, translateContainer_eq hoff hpc rfl, if_pos hin]
  rfl

theorem translateInPlace_error {offset : ℕ} (hoff : offset < AddrSpace.addrCount) {positive : Bool}
    {container : ParameterSet D R → ParamContainer V} {replace : ParamContainer V → ParameterSet D R → ParameterSet D R}
    {ps : ParameterSet D R} {pc : ParamContainer V} (hget : container ps = pc) (hpc : ∀ p ∈ pc, p.1.Has64Bits)
    (hno : ¬ ∀ p ∈ pc, p.1.Within (displacement (.addressTranslator offset hoff positive))
      (displacement (.addressTranslator offset hoff positive))) :
    translateInPlace offset positive container replace ps = .error .overflowError ps := by
  rw [translateInPlace, hget, translateContainer_eq hoff hpc rfl, if_neg hno]

/-- A modifier moves the containers one after the other, up to the first that does not fit. -/
theorem applyNonRecursiveInPlace_eq (m : ParameterSetModifier) {ps : ParameterSet D R}
    (hps : ∀ k ∈ ps.keys, k.Has64Bits) :
    m.applyNonRecursiveInPlace ps =
      if ∀ p ∈ ps.blockingTLMEnabledParameter, p.1.Within m.displacement m.displacement then
        if ∀ p ∈ ps.approximateDelayParameter, p.1.Within m.displacement m.displacement then
          if ∀ p ∈ ps.approximateTraversalRateParameter, p.1.Within m.displacement m.displacement then
            .ok ⟨⟩ (ps.moved m.displacement)
          else .error .overflowError (ps.movedBy m.displacement m.displacement 0)
        else .error .overflowError (ps.movedBy m.displacement 0 0)
      else .error .overflowError ps := by
  obtain ⟨hb, hd, hr⟩ := ParameterSet.forall_mem_keys.mp hps
  cases m with
  | neutral =>
    rw [displacement, if_pos fun p hp => (hb p hp).within_zero, if_pos fun p hp => (hd p hp).within_zero,
      if_pos fun p hp => (hr p hp).within_zero, ParameterSet.moved_zero]
    rfl
  | addressTranslator offset hoff positive =>
    have hzero : ∀ {V : Type} (pc : ParamContainer V), pc.moved 0 = pc := fun pc => by
      simp only [ParamContainer.moved, AddrSpace.moved_zero, List.map_id']
    by_cases hb' : ∀ p ∈ ps.blockingTLMEnabledParameter, p.1.Within
        (displacement (.addressTranslator offset hoff positive)) (displacement (.addressTranslator offset hoff positive))
    · rw [if_pos hb', applyNonRecursiveInPlace]
      apply (bind_of_ok (translateInPlace_ok hoff (by rfl) hb hb')).trans
      by_cases hd' : ∀ p ∈ ps.approximateDelayParameter, p.1.Within
          (displacement (.addressTranslator offset hoff positive))
          (displacement (.addressTranslator offset hoff positive))
      · rw [if_pos hd']
        apply (bind_of_ok (translateInPlace_ok hoff (by rfl) hd hd')).trans
        by_cases hr' : ∀ p ∈ ps.approximateTraversalRateParameter, p.1.Within
            (displacement (.addressTranslator offset hoff positive))
            (displacement (.addressTranslator offset hoff positive))
        · rw [if_pos hr']
          exact translateInPlace_ok hoff (by rfl) hr hr'
        · rw [if_neg hr', ParameterSet.movedBy, hzero]
          exact translateInPlace_error hoff (by rfl) hr hr'
      · rw [if_neg hd', ParameterSet.movedBy, hzero, hzero]
        exact bind_of_error (translateInPlace_error hoff (by rfl) hd hd')
    · rw [if_neg hb', applyNonRecursiveInPlace]
      exact bind_of_error (translateInPlace_error hoff (by rfl) hb hb')

/-! ## The chain -/

/-- What a chain leaves when it throws: the translators before the throwing one have moved all three
containers by the sum of their offsets, the throwing one has moved those in front of the container that
does not fit. -/
def LeavesBehind (chain : List ParameterSetModifier) (ps ps' : ParameterSet D R) : Prop :=
  ∃ later m previous b d r, chain = later ++ m :: previous ∧
    applyInPlace previous ps = .ok ⟨⟩ (ps.moved (total previous)) ∧
    StopsAt m (ps.moved (total previous)) (total previous) b d r ∧ ps' = ps.movedBy b d r ∧
    (ps' = ps ↔ ps.InPlace b d r)

theorem within_add {t d : ℤ} {s : AddrSpace} (hs : s.Within t t) (h : (s.moved t).Within d d) :
    s.Within (t + d) (t + d) := by
  simp only [AddrSpace.Within, AddrSpace.moved] at *
  omega

theorem within_of_moved {V : Type} {t d : ℤ} {pc : ParamContainer V} (hpc : ∀ p ∈ pc, p.1.Within t t)
    (h : ∀ p ∈ pc.moved t, p.1.Within d d) : ∀ p ∈ pc, p.1.Within (t + d) (t + d) := fun p hp =>
  within_add (hpc p hp) (h _ (List.mem_map_of_mem hp))

/-- The throwing translator stops within the set that the others have moved by `t`, with an overflow
error. -/
theorem throws_cases (m : ParameterSetModifier) {ps ps' : ParameterSet D R} {t : ℤ} {e : Failure}
    (ht : ∀ k ∈ ps.keys, k.Within t t) (h : m.applyNonRecursiveInPlace (ps.moved t) = .error e ps') :
    e = .overflowError ∧ ∃ b d r, StopsAt m (ps.moved t) t b d r ∧ ps' = ps.movedBy b d r ∧
      (ps' = ps ↔ ps.InPlace b d r) := by
  obtain ⟨hb, hd, hr⟩ := ParameterSet.forall_mem_keys.mp ht
  have hmid : ∀ k ∈ (ps.moved t).keys, k.Has64Bits := by
    rw [ParameterSet.keys_moved, List.forall_mem_map]
    exact fun k hk => AddrSpace.has64Bits_moved (ht k hk)
  rw [applyNonRecursiveInPlace_eq m hmid] at h
  split_ifs at h with hb' hd' hr'
  · injection h with he hps
    subst he hps
    rw [ParameterSet.movedBy_moved hb hd hr, Int.add_zero]
    refine ⟨rfl, _, _, _, .rate hb' hd' hr', rfl, ?_⟩
    exact ParameterSet.movedBy_eq_self_iff (within_of_moved hb hb') (within_of_moved hd hd') hr
  · injection h with he hps
    subst he hps
    rw [ParameterSet.movedBy_moved hb hd hr, Int.add_zero]
    refine ⟨rfl, _, _, _, .delay hb' hd', rfl, ?_⟩
    exact ParameterSet.movedBy_eq_self_iff (within_of_moved hb hb') hd hr
  · injection h with he hps
    subst he hps
    exact ⟨rfl, _, _, _, .blocking hb', rfl, ParameterSet.movedBy_eq_self_iff hb hd hr⟩

/-- A walk that returns has moved the set without leaving the 64 bits. -/
theorem moved_of_apply {chain : List ParameterSetModifier} {ps ps' : ParameterSet D R}
    (hps : ∀ k ∈ ps.keys, k.Has64Bits) (h : apply ps chain = .ok ps') :
    ps' = ps.moved (total chain) ∧ ∀ k ∈ ps.keys, k.Within (total chain) (total chain) := by
  have hlow := lowest_le chain
  have hhigh := le_highest chain
  rw [apply_eq chain hps] at h
  split_ifs at h with hin
  refine ⟨(Except.ok.inj h).symm, fun k hk => ?_⟩
  have := hin k hk
  unfold AddrSpace.Within at this ⊢
  omega

/-- A chain that returns has done what `apply` describes. -/
theorem applyInPlace_eq_ok (chain : List ParameterSetModifier) {ps ps' : ParameterSet D R}
    (hps : ∀ k ∈ ps.keys, k.Has64Bits) (h : applyInPlace chain ps = .ok ⟨⟩ ps') : apply ps chain = .ok ps' := by
  induction chain generalizing ps' with
  | nil =>
    cases h
    rfl
  | cons m previous ih =>
    rw [applyInPlace] at h
    cases hprev : applyInPlace previous ps with
    | error e mid =>
      rw [bind_of_error hprev] at h
      cases h
    | ok u mid =>
      have happly := ih hprev
      obtain ⟨hmid, hwithin⟩ := moved_of_apply hps happly
      have hbits : ∀ k ∈ mid.keys, k.Has64Bits := by
        rw [hmid, ParameterSet.keys_moved, List.forall_mem_map]
        exact fun k hk => AddrSpace.has64Bits_moved (hwithin k hk)
      rw [bind_of_ok hprev, applyNonRecursiveInPlace_eq m hbits] at h
      rw [apply, happly]
      apply (applyNonRecursive_eq m hbits).trans
      split_ifs at h with hb hd hr
      injection h with _ hps'
      rw [if_pos (ParameterSet.forall_mem_keys.mpr ⟨hb, hd, hr⟩), hps']

/-- A chain that throws an overflow leaves the translators before the throwing one applied, and of the
throwing one what comes before the container that does not fit. The set is as it was exactly when each
of its containers is empty or has been moved by zero in all. -/
theorem applyInPlace_throws (chain : List ParameterSetModifier) {ps ps' : ParameterSet D R} {e : Failure}
    (hps : ∀ k ∈ ps.keys, k.Has64Bits) (h : applyInPlace chain ps = .error e ps') :
    e = .overflowError ∧ LeavesBehind chain ps ps' := by
  induction chain with
  | nil => cases h
  | cons m previous ih =>
    rw [applyInPlace] at h
    cases hprev : applyInPlace previous ps with
    | error e' mid =>
      rw [bind_of_error hprev] at h
      injection h with he hps'
      subst he hps'
      obtain ⟨he, later, m', previous', b, d, r, rfl, hrest⟩ := ih hprev
      exact ⟨he, m :: later, m', previous', b, d, r, rfl, hrest⟩
    | ok u mid =>
      obtain ⟨hmid, hwithin⟩ := moved_of_apply hps (applyInPlace_eq_ok previous hps hprev)
      rw [bind_of_ok hprev, hmid] at h
      obtain ⟨he, b, d, r, hstop, hleft⟩ := throws_cases m hwithin h
      exact ⟨he, [], m, previous, b, d, r, rfl, hmid ▸ hprev, hstop, hleft⟩

/-- A blocking range that fits below its place and a delay that does not. -/
def delayAtZero : ParameterSet ℕ ℕ := ⟨[(⟨32, 47⟩, .enabled)], [(⟨0, 9⟩, 5)], []⟩

/-- The delay throws when the blocking range has been moved already. -/
theorem delayAtZero_moved :
    applyInPlace [.addressTranslator 16 sixteen_lt true] delayAtZero =
        .error .overflowError ⟨[(⟨16, 31⟩, .enabled)], [(⟨0, 9⟩, 5)], []⟩ ∧
      delayAtZero ≠ ⟨[(⟨16, 31⟩, .enabled)], [(⟨0, 9⟩, 5)], []⟩ :=
  ⟨by rfl, by decide⟩

theorem applyInPlace_throws_delayAtZero :
    Failure.overflowError = .overflowError ∧ LeavesBehind [.addressTranslator 16 sixteen_lt true] delayAtZero
      ⟨[(⟨16, 31⟩, .enabled)], [(⟨0, 9⟩, 5)], []⟩ :=
  applyInPlace_throws [.addressTranslator 16 sixteen_lt true] (by decide) (by rfl)

end ParameterSetModifier

end Vpsim.Core
