import Vpsim.Core.ParameterSet

/-!
# Parameter set modifiers

A modifier shifts the address ranges of a parameter set, or of a set of address spaces, on
their way through a module. Modifiers are attached to a module one after the other and form a
chain: the parameter set goes through the chain from the last modifier to the first, a set of
address spaces from the first to the last.
-/

namespace Vpsim.Core

/-- The exceptions of the modelled calls, and the end of the recursion depth given to a run. -/
inductive Failure where
  | rangeError
  | invalidArgument
  | overflowError
  | outOfFuel
deriving DecidableEq, Repr

/-- The text of an exception. -/
def Failure.what : Failure → String
  | .rangeError => "Trying to add a successor to an non existing port"
  | .invalidArgument => "Trying to bind two modules on the same port"
  | .overflowError => "ERROR: Translation caused an overflow."
  | .outOfFuel => ""

/-- A modifier without previous ones: the neutral one, or a translator with a 64-bit offset. -/
inductive ParameterSetModifier where
  | neutral
  | addressTranslator (offset : ℕ) (offset_lt : offset < AddrSpace.addrCount) (positiveOffset : Bool)
deriving DecidableEq

namespace ParameterSetModifier

variable {V D R : Type}

/-- A bound after translation, in 64-bit arithmetic. -/
def shift (offset : ℕ) (positiveOffset : Bool) (a : ℕ) : ℕ :=
  if positiveOffset then (a + AddrSpace.addrCount - offset) % AddrSpace.addrCount
  else (a + offset) % AddrSpace.addrCount

/-- One range after translation; a bound that moved the wrong way has overflowed. -/
def translate (offset : ℕ) (positiveOffset : Bool) (s : AddrSpace) : Except Failure AddrSpace :=
  let newBase := shift offset positiveOffset s.baseAddress
  let newEnd := shift offset positiveOffset s.endAddress
  if (positiveOffset = true ∧ newBase > s.baseAddress) ∨ (positiveOffset = false ∧ newBase < s.baseAddress) ∨
      (positiveOffset = true ∧ newEnd > s.endAddress) ∨ (positiveOffset = false ∧ newEnd < s.endAddress) then
    .error .overflowError
  else .ok ⟨newBase, newEnd⟩

/-- The ranges of a container, translated one after the other. -/
def translateContainer (f : AddrSpace → Except Failure AddrSpace) :
    ParamContainer V → Except Failure (ParamContainer V)
  | [] => .ok []
  | p :: rest => do
    let as ← f p.1
    let rest ← translateContainer f rest
    .ok ((as, p.2) :: rest)

/-- `applyNonRecursive` on a parameter set. -/
def applyNonRecursive (ps : ParameterSet D R) : ParameterSetModifier → Except Failure (ParameterSet D R)
  | .neutral => .ok ps
  | .addressTranslator offset _ positive => do
    let blocking ← translateContainer (translate offset positive) ps.blockingTLMEnabledParameter
    let delay ← translateContainer (translate offset positive) ps.approximateDelayParameter
    let rate ← translateContainer (translate offset positive) ps.approximateTraversalRateParameter
    .ok ⟨blocking, delay, rate⟩

/-- The members of a set of address spaces, translated and emplaced in a new set. -/
def translateMembers (f : AddrSpace → Except Failure AddrSpace) :
    List AddrSpace → SpaceSet → Except Failure SpaceSet
  | [], new => .ok new
  | s :: rest, new => do
    let as ← f s
    translateMembers f rest (new.insert as)

/-- `applyNonRecursive` on a set of address spaces. -/
def applySpacesNonRecursive (spaces : SpaceSet) : ParameterSetModifier → Except Failure SpaceSet
  | .neutral => .ok spaces
  | .addressTranslator offset _ positive =>
    translateMembers (translate offset positive) spaces.members SpaceSet.empty

/-- `ParameterSetModifier::apply` on a parameter set: the previous modifiers come first. -/
def apply (ps : ParameterSet D R) : List ParameterSetModifier → Except Failure (ParameterSet D R)
  | [] => .ok ps
  | m :: previous => do
    let ps ← apply ps previous
    m.applyNonRecursive ps

/-- `ParameterSetModifier::apply` on a set of address spaces: the previous modifiers come last. -/
def applySpaces (spaces : SpaceSet) : List ParameterSetModifier → Except Failure SpaceSet
  | [] => .ok spaces
  | m :: previous => do
    let spaces ← m.applySpacesNonRecursive spaces
    applySpaces spaces previous

/-! ## Translation moves every range by the same amount -/

theorem shift_positive {offset a : ℕ} (hoff : offset < AddrSpace.addrCount) (ha : a < AddrSpace.addrCount)
    (hle : ¬ shift offset true a > a) : shift offset true a + offset = a := by
  simp only [shift, if_true] at hle ⊢
  by_cases hao : offset ≤ a
  · rw [show a + AddrSpace.addrCount - offset = (a - offset) + AddrSpace.addrCount by omega,
      Nat.add_mod_right, Nat.mod_eq_of_lt (by omega)]
    omega
  · rw [Nat.mod_eq_of_lt (by omega)] at hle
    omega

theorem shift_negative {offset a : ℕ} (hoff : offset < AddrSpace.addrCount) (ha : a < AddrSpace.addrCount)
    (hle : ¬ shift offset false a < a) : shift offset false a = a + offset := by
  simp only [shift, Bool.false_eq_true, if_false] at hle ⊢
  by_cases hao : a + offset < AddrSpace.addrCount
  · exact Nat.mod_eq_of_lt hao
  · rw [Nat.mod_eq_sub_mod (by omega), Nat.mod_eq_of_lt (by omega)] at hle
    omega

/-- A translation that does not throw moves both bounds by the offset, without wrapping. -/
theorem translate_eq_ok {offset : ℕ} (hoff : offset < AddrSpace.addrCount) {positive : Bool}
    {s t : AddrSpace} (hs : s.WellFormed) (h : translate offset positive s = .ok t) :
    t.WellFormed ∧
      (positive = true ∧ t.baseAddress + offset = s.baseAddress ∧ t.endAddress + offset = s.endAddress ∨
       positive = false ∧ t.baseAddress = s.baseAddress + offset ∧ t.endAddress = s.endAddress + offset) := by
  have hbase := hs.base_le_end
  have hend := hs.end_lt
  unfold translate at h
  dsimp only at h
  split at h
  · cases h
  · next hover =>
    obtain rfl := Except.ok.inj h
    cases positive with
    | true =>
      have hb := shift_positive hoff (a := s.baseAddress) (by omega) (by tauto)
      have he := shift_positive hoff (a := s.endAddress) hend (by tauto)
      exact ⟨⟨by dsimp only; omega, by dsimp only; omega⟩, Or.inl ⟨rfl, hb, he⟩⟩
    | false =>
      have hb := shift_negative hoff (a := s.baseAddress) (by omega) (by tauto)
      have he := shift_negative hoff (a := s.endAddress) hend (by tauto)
      have hlt : shift offset false s.endAddress < AddrSpace.addrCount := Nat.mod_lt _ (by omega)
      exact ⟨⟨by dsimp only; omega, hlt⟩, Or.inr ⟨rfl, hb, he⟩⟩

theorem translateContainer_cons {f : AddrSpace → Except Failure AddrSpace} {p : AddrSpace × V}
    {rest pc' : ParamContainer V} (h : translateContainer f (p :: rest) = .ok pc') :
    ∃ as rest', f p.1 = .ok as ∧ translateContainer f rest = .ok rest' ∧ pc' = (as, p.2) :: rest' := by
  rw [translateContainer] at h
  cases hp : f p.1 with
  | error e => rw [hp] at h; cases h
  | ok as =>
    cases hr : translateContainer f rest with
    | error e => rw [hp, hr] at h; cases h
    | ok rest' =>
      rw [hp, hr] at h
      exact ⟨as, rest', rfl, rfl, (Except.ok.inj h).symm⟩

theorem mem_translateContainer {f : AddrSpace → Except Failure AddrSpace} {pc pc' : ParamContainer V}
    (h : translateContainer f pc = .ok pc') : ∀ q ∈ pc', ∃ p ∈ pc, f p.1 = .ok q.1 := by
  induction pc generalizing pc' with
  | nil =>
    obtain rfl := Except.ok.inj h
    intro q hq
    cases hq
  | cons p rest ih =>
    obtain ⟨as, rest', hp, hr, rfl⟩ := translateContainer_cons h
    intro q hq
    rcases List.mem_cons.mp hq with rfl | hq
    · exact ⟨p, List.mem_cons_self, hp⟩
    · obtain ⟨p', hp', hq'⟩ := ih hr q hq
      exact ⟨p', List.mem_cons_of_mem _ hp', hq'⟩

/-- Translation keeps a container sound, and drops none of its entries. -/
theorem sound_translateContainer {offset : ℕ} (hoff : offset < AddrSpace.addrCount) {positive : Bool}
    {pc pc' : ParamContainer V} (hs : pc.Sound)
    (h : translateContainer (translate offset positive) pc = .ok pc') :
    pc'.Sound ∧ pc'.length = pc.length := by
  have hwf : ∀ q ∈ pc', q.1.WellFormed := by
    intro q hq
    obtain ⟨p, hp, hpq⟩ := mem_translateContainer h q hq
    exact (translate_eq_ok hoff (hs.wellFormed p hp) hpq).1
  suffices hord : pc'.Pairwise (fun p q => p.1.endAddress < q.1.baseAddress) ∧ pc'.length = pc.length from
    ⟨ParamContainer.Sound.of_ordered hwf hord.1, hord.2⟩
  clear hwf
  induction pc generalizing pc' with
  | nil =>
    obtain rfl := Except.ok.inj h
    exact ⟨List.Pairwise.nil, rfl⟩
  | cons p rest ih =>
    obtain ⟨as, rest', hp, hr, rfl⟩ := translateContainer_cons h
    obtain ⟨hord, hlen⟩ := ih (hs.sublist (List.sublist_cons_self _ _)) hr
    refine ⟨List.pairwise_cons.mpr ⟨fun q hq => ?_, hord⟩, by simp [hlen]⟩
    obtain ⟨q', hq', hqq'⟩ := mem_translateContainer hr q hq
    have hlt := (List.pairwise_cons.mp hs.ordered).1 q' hq'
    have h1 := (translate_eq_ok hoff (hs.wellFormed p List.mem_cons_self) hp).2
    have h2 := (translate_eq_ok hoff (hs.wellFormed q' (List.mem_cons_of_mem _ hq')) hqq').2
    dsimp only
    rcases h1 with ⟨hpos, h1⟩ | ⟨hneg, h1⟩ <;> rcases h2 with ⟨hpos', h2⟩ | ⟨hneg', h2⟩
    · omega
    · rw [hpos] at hneg'; cases hneg'
    · rw [hneg] at hpos'; cases hpos'
    · omega

/-- A modifier keeps a parameter set sound and drops no entry of it. -/
theorem sound_applyNonRecursive {m : ParameterSetModifier} {ps ps' : ParameterSet D R} (hs : ps.Sound)
    (h : m.applyNonRecursive ps = .ok ps') :
    ps'.Sound ∧
      ps'.blockingTLMEnabledParameter.length = ps.blockingTLMEnabledParameter.length ∧
      ps'.approximateDelayParameter.length = ps.approximateDelayParameter.length ∧
      ps'.approximateTraversalRateParameter.length = ps.approximateTraversalRateParameter.length := by
  cases m with
  | neutral =>
    obtain rfl := Except.ok.inj h
    exact ⟨hs, rfl, rfl, rfl⟩
  | addressTranslator offset hoff positive =>
    rw [applyNonRecursive] at h
    cases hb : translateContainer (translate offset positive) ps.blockingTLMEnabledParameter with
    | error e => rw [hb] at h; cases h
    | ok blocking =>
      cases hd : translateContainer (translate offset positive) ps.approximateDelayParameter with
      | error e => rw [hb, hd] at h; cases h
      | ok delay =>
        cases hr : translateContainer (translate offset positive) ps.approximateTraversalRateParameter with
        | error e => rw [hb, hd, hr] at h; cases h
        | ok rate =>
          rw [hb, hd, hr] at h
          obtain rfl := Except.ok.inj h
          obtain ⟨hsb, hlb⟩ := sound_translateContainer hoff hs.blocking hb
          obtain ⟨hsd, hld⟩ := sound_translateContainer hoff hs.delay hd
          obtain ⟨hsr, hlr⟩ := sound_translateContainer hoff hs.rate hr
          exact ⟨⟨hsb, hsd, hsr⟩, hlb, hld, hlr⟩

/-- A chain of modifiers keeps a parameter set sound and drops no entry of it. -/
theorem sound_apply {chain : List ParameterSetModifier} {ps ps' : ParameterSet D R} (hs : ps.Sound)
    (h : apply ps chain = .ok ps') :
    ps'.Sound ∧
      ps'.blockingTLMEnabledParameter.length = ps.blockingTLMEnabledParameter.length ∧
      ps'.approximateDelayParameter.length = ps.approximateDelayParameter.length ∧
      ps'.approximateTraversalRateParameter.length = ps.approximateTraversalRateParameter.length := by
  induction chain generalizing ps' with
  | nil =>
    obtain rfl := Except.ok.inj h
    exact ⟨hs, rfl, rfl, rfl⟩
  | cons m previous ih =>
    rw [apply] at h
    cases hp : apply ps previous with
    | error e => rw [hp] at h; cases h
    | ok mid =>
      rw [hp] at h
      obtain ⟨hmid, h1, h2, h3⟩ := ih hp
      obtain ⟨hs', h1', h2', h3'⟩ := sound_applyNonRecursive hmid h
      exact ⟨hs', h1'.trans h1, h2'.trans h2, h3'.trans h3⟩

theorem mem_translateMembers {offset : ℕ} (hoff : offset < AddrSpace.addrCount) {positive : Bool}
    {l : List AddrSpace} {new res : SpaceSet} (hl : ∀ s ∈ l, s.WellFormed)
    (hnew : ∀ s ∈ new.members, s.WellFormed)
    (h : translateMembers (translate offset positive) l new = .ok res) :
    ∀ s ∈ res.members, s.WellFormed := by
  induction l generalizing new with
  | nil =>
    obtain rfl := Except.ok.inj h
    exact hnew
  | cons s rest ih =>
    rw [translateMembers] at h
    cases hs : translate offset positive s with
    | error e => rw [hs] at h; cases h
    | ok t =>
      rw [hs] at h
      refine ih (fun u hu => hl u (List.mem_cons_of_mem _ hu)) (fun u hu => ?_) h
      rcases SpaceSet.mem_insertMember.mp hu with rfl | hu
      · exact (translate_eq_ok hoff (hl s List.mem_cons_self) hs).1
      · exact hnew u hu

/-- A chain of modifiers keeps the members of a set of address spaces well formed. -/
theorem wellFormed_applySpaces {chain : List ParameterSetModifier} {spaces spaces' : SpaceSet}
    (hwf : ∀ s ∈ spaces.members, s.WellFormed) (h : applySpaces spaces chain = .ok spaces') :
    ∀ s ∈ spaces'.members, s.WellFormed := by
  induction chain generalizing spaces with
  | nil =>
    obtain rfl := Except.ok.inj h
    exact hwf
  | cons m previous ih =>
    rw [applySpaces] at h
    cases hm : m.applySpacesNonRecursive spaces with
    | error e => rw [hm] at h; cases h
    | ok mid =>
      rw [hm] at h
      refine ih ?_ h
      cases m with
      | neutral =>
        obtain rfl := Except.ok.inj hm
        exact hwf
      | addressTranslator offset hoff positive =>
        exact mem_translateMembers hoff hwf (fun s hs => by cases hs) hm

/-! ## The only exception is an overflow -/

theorem translate_eq_error {offset : ℕ} {positive : Bool} {s : AddrSpace} {e : Failure}
    (h : translate offset positive s = .error e) : e = .overflowError := by
  unfold translate at h
  dsimp only at h
  split at h
  · injection h with h
    exact h.symm
  · cases h

theorem translateContainer_eq_error {offset : ℕ} {positive : Bool} {pc : ParamContainer V} {e : Failure}
    (h : translateContainer (translate offset positive) pc = .error e) : e = .overflowError := by
  induction pc with
  | nil => cases h
  | cons p rest ih =>
    rw [translateContainer] at h
    cases hp : translate offset positive p.1 with
    | error e' =>
      rw [hp] at h
      injection h with h
      exact h ▸ translate_eq_error hp
    | ok as =>
      cases hr : translateContainer (translate offset positive) rest with
      | error e' =>
        rw [hp, hr] at h
        injection h with h
        exact ih (h ▸ hr)
      | ok rest' => rw [hp, hr] at h; cases h

theorem translateMembers_eq_error {offset : ℕ} {positive : Bool} {l : List AddrSpace} {new : SpaceSet}
    {e : Failure} (h : translateMembers (translate offset positive) l new = .error e) :
    e = .overflowError := by
  induction l generalizing new with
  | nil => cases h
  | cons s rest ih =>
    rw [translateMembers] at h
    cases hs : translate offset positive s with
    | error e' =>
      rw [hs] at h
      injection h with h
      exact h ▸ translate_eq_error hs
    | ok t => rw [hs] at h; exact ih h

/-- A chain throws only if it has a modifier, and then for an overflow. -/
theorem apply_eq_error {chain : List ParameterSetModifier} {ps : ParameterSet D R} {e : Failure}
    (h : apply ps chain = .error e) : e = .overflowError ∧ chain ≠ [] := by
  induction chain generalizing e with
  | nil => cases h
  | cons m previous ih =>
    refine ⟨?_, List.cons_ne_nil _ _⟩
    rw [apply] at h
    cases hp : apply ps previous with
    | error e' =>
      rw [hp] at h
      injection h with h
      exact h ▸ (ih hp).1
    | ok mid =>
      rw [hp] at h
      change m.applyNonRecursive mid = .error e at h
      cases m with
      | neutral => cases h
      | addressTranslator offset hoff positive =>
        rw [applyNonRecursive] at h
        cases hb : translateContainer (translate offset positive) mid.blockingTLMEnabledParameter with
        | error e' =>
          rw [hb] at h
          injection h with h
          exact h ▸ translateContainer_eq_error hb
        | ok blocking =>
          cases hd : translateContainer (translate offset positive) mid.approximateDelayParameter with
          | error e' =>
            rw [hb, hd] at h
            injection h with h
            exact h ▸ translateContainer_eq_error hd
          | ok delay =>
            cases hr : translateContainer (translate offset positive)
                mid.approximateTraversalRateParameter with
            | error e' =>
              rw [hb, hd, hr] at h
              injection h with h
              exact h ▸ translateContainer_eq_error hr
            | ok rate => rw [hb, hd, hr] at h; cases h

theorem applySpaces_eq_error {chain : List ParameterSetModifier} {spaces : SpaceSet} {e : Failure}
    (h : applySpaces spaces chain = .error e) : e = .overflowError ∧ chain ≠ [] := by
  induction chain generalizing spaces with
  | nil => cases h
  | cons m previous ih =>
    refine ⟨?_, List.cons_ne_nil _ _⟩
    rw [applySpaces] at h
    cases hm : m.applySpacesNonRecursive spaces with
    | error e' =>
      rw [hm] at h
      injection h with h
      subst h
      cases m with
      | neutral => cases hm
      | addressTranslator offset hoff positive => exact translateMembers_eq_error hm
    | ok mid => rw [hm] at h; exact (ih h).1

end ParameterSetModifier

end Vpsim.Core
