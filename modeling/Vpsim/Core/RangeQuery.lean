import Vpsim.Core.ParameterSet

/-!
# Asking for the blocking mode of a range

`getBlockingTLMEnabledParameter` exists for an address and for a range. The query for a range walks
through the container with one iterator, which the walks over the parts before and after an entry share:
each of them starts one entry further than the one before.
-/

namespace Vpsim.Core

open Vpsim.Lib

namespace ParamContainer

mutual

/-- `helper` of `getParameterValForAddrSpace`, from the entry that the iterator stands at. An iterator
that is moved past the end of the container is undefined. -/
def helper (defaultValue : BlockingTLMEnabled) :
    ParamContainer BlockingTLMEnabled → AddrSpace → Option BlockingTLMEnabled
  | [], _ => some defaultValue
  | p :: rest, as =>
    if as.intersect p.1 then
      if p.2 = .disabled then helperOthers defaultValue (p :: rest) (as.relativeComplement p.1) p.2
      else some p.2
    else if as.endAddress < p.1.baseAddress then some defaultValue
    else helper defaultValue rest as
termination_by pc => 2 * pc.length + 1

/-- The loop over the parts of the range outside the entry: the iterator advances for each of them. -/
def helperOthers (defaultValue : BlockingTLMEnabled) :
    ParamContainer BlockingTLMEnabled → List AddrSpace → BlockingTLMEnabled → Option BlockingTLMEnabled
  | _, [], accumulator => some accumulator
  | [], _ :: _, _ => none
  | _ :: p, otherAs :: pieces, accumulator =>
    (helper defaultValue p otherAs).bind fun v =>
      helperOthers defaultValue p pieces (ParameterSet.maxBlocking accumulator v)
termination_by pc => 2 * pc.length

end

/-- `ParameterSet::getParameterValForAddrSpace`. -/
def getParameterValForAddrSpace (defaultValue : BlockingTLMEnabled) (pc : ParamContainer BlockingTLMEnabled)
    (addr : AddrSpace) : Option BlockingTLMEnabled := helper defaultValue pc addr

/-- `ParameterSet::getParameterValue`. -/
def getParameterValue {V : Type} (defaultValue : V) : ParamContainer V → ℕ → V
  | [], _ => defaultValue
  | p :: rest, addr =>
    if p.1.endAddress ≥ addr ∧ p.1.baseAddress ≤ addr then p.2 else getParameterValue defaultValue rest addr

/-- The entries that meet a range. -/
def inside (pc : ParamContainer BlockingTLMEnabled) (as : AddrSpace) : ParamContainer BlockingTLMEnabled :=
  pc.filter fun p => as.intersect p.1

/-- The first entries of a container, up to the first gap behind the address `b`. -/
def adjoining : ℕ → ParamContainer BlockingTLMEnabled → ParamContainer BlockingTLMEnabled
  | _, [] => []
  | b, p :: rest => if p.1.baseAddress ≤ b then p :: adjoining (p.1.endAddress + 1) rest else []

/-- The entries from the first gap behind the address `b` on. -/
def beyondGap : ℕ → ParamContainer BlockingTLMEnabled → ParamContainer BlockingTLMEnabled
  | _, [] => []
  | b, p :: rest => if p.1.baseAddress ≤ b then beyondGap (p.1.endAddress + 1) rest else p :: rest

/-- The first element of a list and every second one after it. -/
def everyOther {α : Type} : List α → List α
  | [] => []
  | [x] => [x]
  | x :: _ :: rest => x :: everyOther rest

/-- The walk over the entries `far` leaves the container: it looks at the last of them, finds a part of
the range behind it, and there is no entry to go on with. -/
def RunsOut (far pc : ParamContainer BlockingTLMEnabled) (as : AddrSpace) : Prop :=
  far.length % 2 = 1 ∧ (∀ p ∈ far, p.1.endAddress < as.endAddress) ∧ ∀ p ∈ pc, p.1.baseAddress ≤ as.endAddress

instance (far pc : ParamContainer BlockingTLMEnabled) (as : AddrSpace) : Decidable (RunsOut far pc as) :=
  inferInstanceAs (Decidable (_ ∧ _ ∧ _))

/-! ## One step of the walk -/

variable {defaultValue : BlockingTLMEnabled} {p : AddrSpace × BlockingTLMEnabled}
  {pc rest : ParamContainer BlockingTLMEnabled} {as : AddrSpace}

theorem getParameterValue_eq {V : Type} (defaultValue : V) (pc : ParamContainer V) (a : ℕ) :
    getParameterValue defaultValue pc a = (valueAt pc a).getD defaultValue := by
  induction pc with
  | nil => rfl
  | cons p rest ih =>
    rw [getParameterValue]
    by_cases ha : a ∈ p.1
    · rw [if_pos ⟨ha.2, ha.1⟩, valueAt, valuesAt_cons_of_mem _ ha]
      rfl
    · rw [if_neg fun h => ha ⟨h.2, h.1⟩, ih, valueAt, valueAt, valuesAt_cons_of_notMem _ ha]

/-- Where all entries start behind the range, the default value holds. -/
theorem helper_of_behind (h : ∀ p ∈ pc, as.endAddress < p.1.baseAddress) :
    helper defaultValue pc as = some defaultValue := by
  cases pc with
  | nil => rw [helper]
  | cons p rest =>
    have hp := h p List.mem_cons_self
    have hmeet : ¬ as.intersect p.1 = true := by
      rw [AddrSpace.intersect_iff]
      omega
    rw [helper, if_neg hmeet, if_pos hp]

theorem inside_of_behind (h : ∀ p ∈ pc, as.endAddress < p.1.baseAddress) : inside pc as = [] := by
  rw [inside, List.filter_eq_nil_iff]
  intro p hp
  rw [AddrSpace.intersect_iff]
  have := h p hp
  omega

/-- An entry that ends before the range is passed over. -/
theorem helper_of_before (hp : p.1.WellFormed) (has : as.WellFormed)
    (h : p.1.endAddress < as.baseAddress) :
    helper defaultValue (p :: rest) as = helper defaultValue rest as := by
  have hle := hp.base_le_end
  have hle' := has.base_le_end
  have hmeet : ¬ as.intersect p.1 = true := by
    rw [AddrSpace.intersect_iff]
    omega
  rw [helper, if_neg hmeet, if_neg (by omega)]

theorem helper_of_enabled (hmeet : as.intersect p.1 = true) (h : p.2 = .enabled) :
    helper defaultValue (p :: rest) as = some .enabled := by
  rw [helper, if_pos hmeet, h]
  rfl

/-- A disabled entry that covers the rest of the range decides it. -/
theorem helper_of_covered (hmeet : as.intersect p.1 = true) (h : p.2 = .disabled)
    (hbase : p.1.baseAddress ≤ as.baseAddress) (hend : as.endAddress ≤ p.1.endAddress) :
    helper defaultValue (p :: rest) as = some .disabled := by
  have hpieces : as.relativeComplement p.1 = [] := by
    rw [AddrSpace.relativeComplement, if_neg (by omega), if_neg (by omega), List.append_nil]
  rw [helper, if_pos hmeet, if_pos h, hpieces, h, helperOthers]

/-- Behind a disabled entry without a gap in front of it the walk goes on with the next entry. -/
theorem helper_of_adjoining (hmeet : as.intersect p.1 = true) (h : p.2 = .disabled)
    (hbase : p.1.baseAddress ≤ as.baseAddress) (hend : p.1.endAddress < as.endAddress) :
    helper defaultValue (p :: rest) as = helper defaultValue rest ⟨p.1.endAddress + 1, as.endAddress⟩ := by
  have hpieces : as.relativeComplement p.1 = [⟨p.1.endAddress + 1, as.endAddress⟩] := by
    rw [AddrSpace.relativeComplement, if_neg (by omega), if_pos hend, List.nil_append]
  rw [helper, if_pos hmeet, if_pos h, hpieces, h, helperOthers]
  cases helper defaultValue rest ⟨p.1.endAddress + 1, as.endAddress⟩ with
  | none => rfl
  | some v =>
    rw [Option.bind_some, helperOthers]
    rfl

/-- The part of the range in front of its first entry has the default value. -/
theorem helper_in_front (hs : Sound (p :: rest)) (hbase : as.baseAddress < p.1.baseAddress) :
    helper defaultValue rest ⟨as.baseAddress, p.1.baseAddress - 1⟩ = some defaultValue := by
  have hp := (hs.wellFormed p List.mem_cons_self).base_le_end
  apply helper_of_behind
  intro q hq
  have := (List.pairwise_cons.mp hs.ordered).1 q hq
  dsimp only
  omega

theorem helper_of_gap_end (hs : Sound (p :: rest)) (hmeet : as.intersect p.1 = true) (h : p.2 = .disabled)
    (hbase : as.baseAddress < p.1.baseAddress) (hend : as.endAddress ≤ p.1.endAddress) :
    helper defaultValue (p :: rest) as = some defaultValue := by
  have hpieces : as.relativeComplement p.1 = [⟨as.baseAddress, p.1.baseAddress - 1⟩] := by
    rw [AddrSpace.relativeComplement, if_pos hbase, if_neg (by omega), List.append_nil]
  rw [helper, if_pos hmeet, if_pos h, hpieces, h, helperOthers, helper_in_front hs hbase, Option.bind_some,
    helperOthers]
  rfl

/-- With parts on both sides of the last entry the iterator is moved past the end. -/
theorem helper_of_gap_last (hs : Sound [p]) (hmeet : as.intersect p.1 = true) (h : p.2 = .disabled)
    (hbase : as.baseAddress < p.1.baseAddress) (hend : p.1.endAddress < as.endAddress) :
    helper defaultValue [p] as = none := by
  have hpieces : as.relativeComplement p.1 =
      [⟨as.baseAddress, p.1.baseAddress - 1⟩, ⟨p.1.endAddress + 1, as.endAddress⟩] := by
    rw [AddrSpace.relativeComplement, if_pos hbase, if_pos hend, List.singleton_append]
  rw [helper, if_pos hmeet, if_pos h, hpieces, h, helperOthers, helper_in_front hs hbase, Option.bind_some,
    helperOthers]

/-- With parts on both sides of an entry the walk over the second part leaves out the next entry. -/
theorem helper_of_gap_cons {q : AddrSpace × BlockingTLMEnabled} (hs : Sound (p :: q :: rest))
    (hmeet : as.intersect p.1 = true) (h : p.2 = .disabled) (hbase : as.baseAddress < p.1.baseAddress)
    (hend : p.1.endAddress < as.endAddress) :
    helper defaultValue (p :: q :: rest) as =
      (helper defaultValue rest ⟨p.1.endAddress + 1, as.endAddress⟩).map
        (ParameterSet.maxBlocking defaultValue) := by
  have hpieces : as.relativeComplement p.1 =
      [⟨as.baseAddress, p.1.baseAddress - 1⟩, ⟨p.1.endAddress + 1, as.endAddress⟩] := by
    rw [AddrSpace.relativeComplement, if_pos hbase, if_pos hend, List.singleton_append]
  rw [helper, if_pos hmeet, if_pos h, hpieces, h, helperOthers, helper_in_front hs hbase, Option.bind_some,
    helperOthers]
  cases helper defaultValue rest ⟨p.1.endAddress + 1, as.endAddress⟩ with
  | none => rfl
  | some v =>
    rw [Option.bind_some, helperOthers]
    rfl

/-! ## The walk behind the first gap -/

theorem inside_cons_of_meets (hmeet : as.intersect p.1 = true) : inside (p :: rest) as = p :: inside rest as := by
  simp [inside, hmeet]

theorem inside_cons_of_not (hmeet : ¬ as.intersect p.1 = true) : inside (p :: rest) as = inside rest as := by
  simp [inside, hmeet]

/-- The entries behind an entry meet the same ranges whether or not the range starts behind it. -/
theorem inside_behind (hs : Sound (p :: rest)) (hbase : as.baseAddress ≤ p.1.endAddress) :
    inside rest ⟨p.1.endAddress + 1, as.endAddress⟩ = inside rest as := by
  apply List.filter_congr
  intro q hq
  have hlt := (List.pairwise_cons.mp hs.ordered).1 q hq
  have hq' := (hs.wellFormed q (List.mem_cons_of_mem _ hq)).base_le_end
  rw [Bool.eq_iff_iff, AddrSpace.intersect_iff, AddrSpace.intersect_iff]
  dsimp only
  omega

theorem Sound.tail (hs : Sound (p :: rest)) : Sound rest := hs.sublist (List.sublist_cons_self _ _)

/-- What the walk gives behind a gap, where every second of the entries `far` is asked. -/
def gapAnswer (defaultValue : BlockingTLMEnabled) (far pc : ParamContainer BlockingTLMEnabled) (as : AddrSpace) :
    Option BlockingTLMEnabled :=
  if ∃ p ∈ everyOther far, p.2 = .enabled then some .enabled
  else if RunsOut far pc as then none else some defaultValue

theorem gapAnswer_nil : gapAnswer defaultValue [] pc as = some defaultValue := by
  simp [gapAnswer, everyOther, RunsOut]

theorem gapAnswer_one (h : p.2 = .disabled) :
    gapAnswer defaultValue [p] pc as =
      if p.1.endAddress < as.endAddress ∧ ∀ q ∈ pc, q.1.baseAddress ≤ as.endAddress then none
      else some defaultValue := by
  have hout : RunsOut [p] pc as ↔
      p.1.endAddress < as.endAddress ∧ ∀ q ∈ pc, q.1.baseAddress ≤ as.endAddress := by
    constructor
    · intro hout
      exact ⟨hout.2.1 p List.mem_cons_self, hout.2.2⟩
    · intro hends
      exact ⟨rfl, by simpa using hends.1, hends.2⟩
  rw [gapAnswer, if_neg, if_congr hout rfl rfl]
  simp [everyOther, h]

theorem gapAnswer_enabled (h : p.2 = .enabled) : gapAnswer defaultValue (p :: rest) pc as = some .enabled := by
  rw [gapAnswer, if_pos]
  refine ⟨p, ?_, h⟩
  cases rest with
  | nil => exact List.mem_cons_self
  | cons q rest => exact List.mem_cons_self

/-- Two entries that meet the range are one that is asked and one that is not. -/
theorem gapAnswer_cons_cons {q : AddrSpace × BlockingTLMEnabled} (hs : Sound (p :: q :: rest))
    (h : p.2 = .disabled) (hp : p.1.endAddress < as.endAddress) (hq : q.1.baseAddress ≤ as.endAddress) :
    gapAnswer defaultValue (p :: q :: inside rest as) (p :: q :: rest) as =
      (gapAnswer defaultValue (inside rest as) rest ⟨p.1.endAddress + 1, as.endAddress⟩).map
        (ParameterSet.maxBlocking defaultValue) := by
  have hout : RunsOut (p :: q :: inside rest as) (p :: q :: rest) as ↔
      RunsOut (inside rest as) rest ⟨p.1.endAddress + 1, as.endAddress⟩ := by
    have hpbase := (hs.wellFormed p List.mem_cons_self).base_le_end
    simp only [RunsOut, List.length_cons, List.mem_cons, forall_eq_or_imp]
    constructor
    · rintro ⟨hodd, hend, hbase⟩
      exact ⟨by omega, hend.2.2, hbase.2.2⟩
    · rintro ⟨hodd, hend, hbase⟩
      refine ⟨by omega, ⟨hp, ?_, hend⟩, ⟨by omega, hq, hbase⟩⟩
      -- An odd number of entries is at least one, and the skipped entry ends before it.
      obtain ⟨r, hr⟩ : ∃ r, r ∈ inside rest as :=
        List.exists_mem_of_length_pos (by omega)
      have hqr := (List.pairwise_cons.mp hs.tail.ordered).1 r (List.mem_of_mem_filter hr)
      have hrle := (hs.wellFormed r (by simp [List.mem_of_mem_filter hr])).base_le_end
      have := hend r hr
      omega
  have hasked : (∃ r ∈ everyOther (p :: q :: inside rest as), r.2 = .enabled) ↔
      ∃ r ∈ everyOther (inside rest as), r.2 = .enabled := by
    simp [everyOther, h]
  rw [gapAnswer, gapAnswer, if_congr hasked rfl (if_congr hout rfl rfl)]
  split_ifs
  · cases defaultValue <;> rfl
  · rfl
  · cases defaultValue <;> rfl

/-- Where the range begins with a gap, every second entry is asked, from the first one on. -/
theorem helper_of_gap (hs : Sound pc) (has : as.WellFormed) (hgap : ∀ p ∈ pc, as.baseAddress < p.1.baseAddress) :
    helper defaultValue pc as = gapAnswer defaultValue (inside pc as) pc as := by
  have hle := has.base_le_end
  induction pc using everyOther.induct generalizing as with
  | case1 => rw [helper, inside, List.filter_nil, gapAnswer_nil]
  | case2 p =>
    have hbase := hgap p List.mem_cons_self
    have hple := (hs.wellFormed p List.mem_cons_self).base_le_end
    by_cases hp : as.endAddress < p.1.baseAddress
    · have hbehind : ∀ r ∈ [p], as.endAddress < r.1.baseAddress := by simpa using hp
      rw [helper_of_behind hbehind, inside_of_behind hbehind, gapAnswer_nil]
    · have hmeet : as.intersect p.1 = true := AddrSpace.intersect_iff.mpr (by omega)
      rw [inside_cons_of_meets hmeet]
      cases hv : p.2 with
      | enabled => rw [helper_of_enabled hmeet hv, gapAnswer_enabled hv]
      | disabled =>
        by_cases hend : p.1.endAddress < as.endAddress
        · rw [helper_of_gap_last hs hmeet hv hbase hend, inside, List.filter_nil, gapAnswer_one hv, if_pos]
          exact ⟨hend, by simp; omega⟩
        · rw [helper_of_gap_end hs hmeet hv hbase (by omega), inside, List.filter_nil, gapAnswer_one hv, if_neg]
          exact fun h => hend h.1
  | case3 p q rest ih =>
    have hbase := hgap p List.mem_cons_self
    have hple := (hs.wellFormed p List.mem_cons_self).base_le_end
    have hq := hs.wellFormed q (by simp)
    have hqle := hq.base_le_end
    have hpq := (List.pairwise_cons.mp hs.ordered).1 q List.mem_cons_self
    have hqr := (List.pairwise_cons.mp hs.tail.ordered).1
    by_cases hp : as.endAddress < p.1.baseAddress
    · have hbehind : ∀ r ∈ p :: q :: rest, as.endAddress < r.1.baseAddress := by
        intro r hr
        rcases List.mem_cons.mp hr with rfl | hr
        · exact hp
        · have := (List.pairwise_cons.mp hs.ordered).1 r hr
          omega
      rw [helper_of_behind hbehind, inside_of_behind hbehind, gapAnswer_nil]
    have hmeet : as.intersect p.1 = true := AddrSpace.intersect_iff.mpr (by omega)
    rw [inside_cons_of_meets hmeet]
    cases hv : p.2 with
    | enabled => rw [helper_of_enabled hmeet hv, gapAnswer_enabled hv]
    | disabled =>
      by_cases hqas : q.1.baseAddress ≤ as.endAddress
      · have hmeetq : as.intersect q.1 = true := AddrSpace.intersect_iff.mpr (by omega)
        have hright : AddrSpace.WellFormed ⟨p.1.endAddress + 1, as.endAddress⟩ :=
          ⟨hpq.trans_le hqas, has.end_lt⟩
        have hsub : inside rest ⟨p.1.endAddress + 1, as.endAddress⟩ = inside rest as :=
          inside_behind (hs.sublist ((List.sublist_cons_self q rest).cons_cons p)) (by omega)
        have hwalk : helper defaultValue rest ⟨p.1.endAddress + 1, as.endAddress⟩ = _ :=
          ih hs.tail.tail hright (fun r hr => by have := hqr r hr; dsimp only; omega) hright.base_le_end
        rw [hsub] at hwalk
        rw [helper_of_gap_cons hs hmeet hv hbase (by omega), hwalk, inside_cons_of_meets hmeetq,
          gapAnswer_cons_cons hs hv (by omega) hqas]
      · have hmeetq : ¬ as.intersect q.1 = true := by
          rw [AddrSpace.intersect_iff]
          omega
        have hbehind : ∀ r ∈ rest, as.endAddress < r.1.baseAddress := by
          intro r hr
          have := hqr r hr
          omega
        rw [inside_cons_of_not hmeetq, inside_of_behind hbehind, gapAnswer_one hv, if_neg]
        · by_cases hend : p.1.endAddress < as.endAddress
          · have hlast : helper defaultValue rest ⟨p.1.endAddress + 1, as.endAddress⟩ = some defaultValue :=
              helper_of_behind hbehind
            rw [helper_of_gap_cons hs hmeet hv hbase hend, hlast]
            cases defaultValue <;> rfl
          · exact helper_of_gap_end hs hmeet hv hbase (by omega)
        · intro h
          have := h.2 q (by simp)
          omega

/-! ## The two queries compared -/

/-- Some address of the range is enabled. -/
def EnabledIn (defaultValue : BlockingTLMEnabled) (pc : ParamContainer BlockingTLMEnabled) (as : AddrSpace) : Prop :=
  ∃ a ∈ as, getParameterValue defaultValue pc a = .enabled

/-- The query for the range does not leave the container and agrees with the queries for its addresses. -/
def QueriesAgree (defaultValue : BlockingTLMEnabled) (pc : ParamContainer BlockingTLMEnabled) (as : AddrSpace) :
    Prop :=
  ∃ v, getParameterValForAddrSpace defaultValue pc as = some v ∧ (v = .enabled ↔ EnabledIn defaultValue pc as)

/-- Of the entries `run` in front of the first gap of the range and the entries `far` behind it, an entry
that is asked is enabled; or the walk ends inside the container, and behind the gap no entry is enabled
that the default value does not make up for. -/
def Answers (defaultValue : BlockingTLMEnabled) (run far pc : ParamContainer BlockingTLMEnabled) (as : AddrSpace) :
    Prop :=
  (∃ p ∈ run ++ everyOther far, p.2 = .enabled) ∨
    (¬ RunsOut far pc as ∧ (defaultValue = .enabled ∨ ∀ p ∈ far, p.2 = .disabled))

theorem enabledIn_cons_of_before (h : p.1.endAddress < as.baseAddress) :
    EnabledIn defaultValue (p :: rest) as ↔ EnabledIn defaultValue rest as := by
  have hrest : ∀ a ∈ as, getParameterValue defaultValue (p :: rest) a = getParameterValue defaultValue rest a := by
    intro a ha
    rw [AddrSpace.mem_def] at ha
    rw [getParameterValue, if_neg (by omega)]
  constructor
  · rintro ⟨a, ha, hval⟩
    exact ⟨a, ha, hrest a ha ▸ hval⟩
  · rintro ⟨a, ha, hval⟩
    exact ⟨a, ha, (hrest a ha).trans hval⟩

/-- Where a range begins with a gap, the default value holds there, and every entry that meets the range
has its value on it. -/
theorem enabledIn_of_gap (hs : Sound pc) (has : as.WellFormed) (hgap : ∀ p ∈ pc, as.baseAddress < p.1.baseAddress) :
    EnabledIn defaultValue pc as ↔ defaultValue = .enabled ∨ ∃ p ∈ inside pc as, p.2 = .enabled := by
  constructor
  · rintro ⟨a, ha, hval⟩
    rw [getParameterValue_eq] at hval
    cases hv : valueAt pc a with
    | none =>
      rw [hv] at hval
      exact Or.inl hval
    | some v =>
      rw [hv] at hval
      obtain ⟨k, hk, hak⟩ := hs.apart.valueAt_eq_some.mp hv
      exact Or.inr ⟨(k, v), List.mem_filter.mpr ⟨hk, AddrSpace.intersect_of_mem ha hak⟩, hval⟩
  · rintro (hdefault | ⟨p, hp, hval⟩)
    · refine ⟨as.baseAddress, has.base_mem, ?_⟩
      have hnone : valueAt pc as.baseAddress = none := by
        rw [valueAt_eq_none]
        intro p hp hin
        have := hgap p hp
        rw [AddrSpace.mem_def] at hin
        omega
      rw [getParameterValue_eq, hnone]
      exact hdefault
    · obtain ⟨hmem, hmeet⟩ := List.mem_filter.mp hp
      obtain ⟨a, ha, hap⟩ := (AddrSpace.intersect_iff_exists_mem has (hs.wellFormed p hmem)).mp hmeet
      refine ⟨a, ha, ?_⟩
      rw [getParameterValue_eq, hs.apart.valueAt_eq_some.mpr ⟨p.1, hmem, hap⟩]
      exact hval

theorem mem_of_mem_everyOther {α : Type} {l : List α} {x : α} (h : x ∈ everyOther l) : x ∈ l := by
  induction l using everyOther.induct with
  | case1 => cases h
  | case2 y => exact h
  | case3 y z rest ih =>
    rcases List.mem_cons.mp h with rfl | h
    · exact List.mem_cons_self
    · exact List.mem_cons_of_mem _ (List.mem_cons_of_mem _ (ih h))

theorem not_enabled {v : BlockingTLMEnabled} : ¬ v = .enabled ↔ v = .disabled := by
  cases v <;> simp

theorem queriesAgree_congr {pc' : ParamContainer BlockingTLMEnabled} {as' : AddrSpace}
    (h : helper defaultValue pc as = helper defaultValue pc' as')
    (hin : EnabledIn defaultValue pc as ↔ EnabledIn defaultValue pc' as') :
    QueriesAgree defaultValue pc as ↔ QueriesAgree defaultValue pc' as' := by
  rw [QueriesAgree, QueriesAgree, getParameterValForAddrSpace, getParameterValForAddrSpace, h]
  simp only [hin]

/-- Where the range begins with a gap the queries agree exactly when the entries that are asked decide. -/
theorem queriesAgree_of_gap (hs : Sound pc) (has : as.WellFormed)
    (hgap : ∀ p ∈ pc, as.baseAddress < p.1.baseAddress) :
    QueriesAgree defaultValue pc as ↔ Answers defaultValue [] (inside pc as) pc as := by
  rw [QueriesAgree, getParameterValForAddrSpace, helper_of_gap hs has hgap, enabledIn_of_gap hs has hgap, Answers,
    List.nil_append, gapAnswer]
  by_cases hasked : ∃ p ∈ everyOther (inside pc as), p.2 = .enabled
  · rw [if_pos hasked]
    obtain ⟨p, hp, hval⟩ := hasked
    refine iff_of_true ⟨.enabled, rfl, iff_of_true rfl ?_⟩ (Or.inl ⟨p, hp, hval⟩)
    exact Or.inr ⟨p, mem_of_mem_everyOther hp, hval⟩
  rw [if_neg hasked]
  by_cases hout : RunsOut (inside pc as) pc as
  · rw [if_pos hout]
    refine iff_of_false ?_ ?_
    · rintro ⟨v, hv, -⟩
      cases hv
    · rintro (h | h)
      · exact hasked h
      · exact h.1 hout
  · rw [if_neg hout]
    simp only [← not_enabled]
    constructor
    · rintro ⟨v, hv, hiff⟩
      obtain rfl := Option.some.inj hv
      refine Or.inr ⟨hout, or_iff_not_imp_left.mpr fun hdefault p hp hval => hdefault (hiff.mpr ?_)⟩
      exact Or.inr ⟨p, hp, hval⟩
    · rintro (h | ⟨-, h⟩)
      · exact absurd h hasked
      · refine ⟨defaultValue, rfl, Or.inl, ?_⟩
        rintro (hdefault | ⟨p, hp, hval⟩)
        · exact hdefault
        · exact h.resolve_right fun hall => hall p hp hval

theorem adjoining_of_gap {b : ℕ} (h : ∀ p ∈ pc, b < p.1.baseAddress) : adjoining b pc = [] ∧ beyondGap b pc = pc := by
  cases pc with
  | nil => exact ⟨rfl, rfl⟩
  | cons p rest =>
    have hp := h p List.mem_cons_self
    rw [adjoining, beyondGap, if_neg (by omega), if_neg (by omega)]
    exact ⟨rfl, rfl⟩

/-- An entry that starts before the end of the range is nothing to go on with. -/
theorem runsOut_cons {far : ParamContainer BlockingTLMEnabled} (h : p.1.baseAddress ≤ as.endAddress) :
    RunsOut far (p :: rest) as ↔ RunsOut far rest as := by
  simp only [RunsOut, List.mem_cons, forall_eq_or_imp, h, true_and]

/-- A disabled entry at the start of the range adds no enabled address. -/
theorem enabledIn_behind (hbase : p.1.baseAddress ≤ as.baseAddress) (hin : as.baseAddress ≤ p.1.endAddress)
    (hval : p.2 = .disabled) :
    EnabledIn defaultValue (p :: rest) as ↔ EnabledIn defaultValue rest ⟨p.1.endAddress + 1, as.endAddress⟩ := by
  simp only [EnabledIn, AddrSpace.mem_def]
  constructor
  · rintro ⟨a, ha, henabled⟩
    rw [getParameterValue] at henabled
    split_ifs at henabled with hcase
    · rw [hval] at henabled
      cases henabled
    · exact ⟨a, by omega, henabled⟩
  · rintro ⟨a, ha, henabled⟩
    refine ⟨a, by omega, ?_⟩
    rw [getParameterValue, if_neg (by omega)]
    exact henabled

/-- The query for a range agrees with the queries for its addresses, and does not leave the container,
exactly when the entries that the walk asks decide: all of them up to the first gap of the range, and
from there on every second one. -/
theorem queriesAgree_iff (hs : Sound pc) (has : as.WellFormed) :
    QueriesAgree defaultValue pc as ↔
      Answers defaultValue (adjoining as.baseAddress (inside pc as)) (beyondGap as.baseAddress (inside pc as)) pc as := by
  have hle := has.base_le_end
  induction pc generalizing as with
  | nil => exact queriesAgree_of_gap hs has fun p hp => absurd hp List.not_mem_nil
  | cons p rest ih =>
    have hp := hs.wellFormed p List.mem_cons_self
    have hple := hp.base_le_end
    have hlt := (List.pairwise_cons.mp hs.ordered).1
    by_cases hgap : as.baseAddress < p.1.baseAddress
    · have hall : ∀ q ∈ p :: rest, as.baseAddress < q.1.baseAddress := by
        intro q hq
        rcases List.mem_cons.mp hq with rfl | hq
        · exact hgap
        · have := hlt q hq
          omega
      have hsplit := adjoining_of_gap (fun q (hq : q ∈ inside (p :: rest) as) => hall q (List.mem_of_mem_filter hq))
      rw [hsplit.1, hsplit.2]
      exact queriesAgree_of_gap hs has hall
    by_cases hbefore : p.1.endAddress < as.baseAddress
    · have hmeet : ¬ as.intersect p.1 = true := by
        rw [AddrSpace.intersect_iff]
        omega
      have hsame : QueriesAgree defaultValue (p :: rest) as ↔ QueriesAgree defaultValue rest as :=
        queriesAgree_congr (helper_of_before hp has hbefore) (enabledIn_cons_of_before hbefore)
      apply hsame.trans ((ih hs.tail has hle).trans _)
      rw [inside_cons_of_not hmeet, Answers, Answers, runsOut_cons (by omega)]
    have hmeet : as.intersect p.1 = true := AddrSpace.intersect_iff.mpr (by omega)
    rw [inside_cons_of_meets hmeet, adjoining, beyondGap, if_pos (by omega), if_pos (by omega)]
    cases hval : p.2 with
    | enabled =>
      refine iff_of_true ⟨.enabled, helper_of_enabled hmeet hval, iff_of_true rfl ?_⟩
        (Or.inl ⟨p, List.mem_cons_self, hval⟩)
      refine ⟨as.baseAddress, has.base_mem, ?_⟩
      rw [getParameterValue, if_pos (by omega), hval]
    | disabled =>
      by_cases hend : p.1.endAddress < as.endAddress
      · have hright : AddrSpace.WellFormed ⟨p.1.endAddress + 1, as.endAddress⟩ := ⟨hend, has.end_lt⟩
        have hrest := ih hs.tail hright hright.base_le_end
        rw [inside_behind hs (by omega)] at hrest
        have hsame : QueriesAgree defaultValue (p :: rest) as ↔
            QueriesAgree defaultValue rest ⟨p.1.endAddress + 1, as.endAddress⟩ :=
          queriesAgree_congr (helper_of_adjoining hmeet hval (by omega) hend)
            (enabledIn_behind (by omega) (by omega) hval)
        apply hsame.trans (hrest.trans _)
        rw [Answers, Answers, runsOut_cons (by omega)]
        simp only [List.cons_append, List.mem_cons, exists_eq_or_imp, hval, reduceCtorEq, false_or, RunsOut]
      · -- The entry covers the range, so no other one meets it.
        have hnone : inside rest as = [] := inside_of_behind fun q hq => by
          have := hlt q hq
          omega
        rw [hnone]
        refine iff_of_true ⟨.disabled, helper_of_covered hmeet hval (by omega) (by omega), ?_⟩ (Or.inr ⟨?_, Or.inr ?_⟩)
        · refine iff_of_false (by simp) ?_
          rintro ⟨a, ha, henabled⟩
          rw [AddrSpace.mem_def] at ha
          rw [getParameterValue, if_pos (by omega), hval] at henabled
          cases henabled
        · intro hout
          have hodd := hout.1
          simp [beyondGap] at hodd
        · intro q hq
          simp [beyondGap] at hq

/-- A disabled range followed by an enabled one. -/
def disabledThenEnabled : ParamContainer BlockingTLMEnabled := [(⟨10, 19⟩, .disabled), (⟨20, 29⟩, .enabled)]

theorem sound_disabledThenEnabled : Sound disabledThenEnabled := Sound.of_ordered (by decide) (by decide)

/-- The query for a range that begins in front of both entries and ends behind them answers disabled. Without
the second entry it moves the iterator past the end. -/
theorem query_leaves_out_enabled :
    Sound disabledThenEnabled ∧ AddrSpace.WellFormed ⟨0, 39⟩ ∧
      ¬ QueriesAgree .disabled disabledThenEnabled ⟨0, 39⟩ ∧
      getParameterValForAddrSpace .disabled [(⟨10, 19⟩, .disabled)] ⟨0, 39⟩ = none := by
  refine ⟨sound_disabledThenEnabled, by decide, ?_, by decide +kernel⟩
  rintro ⟨v, hv, hiff⟩
  have hdisabled : getParameterValForAddrSpace .disabled disabledThenEnabled ⟨0, 39⟩ = some .disabled := by
    decide +kernel
  obtain rfl := Option.some.inj (hdisabled.symm.trans hv)
  have henabled : EnabledIn .disabled disabledThenEnabled ⟨0, 39⟩ := ⟨20, by decide, by decide⟩
  cases hiff.mpr henabled

theorem queriesAgree_iff_disabledThenEnabled :
    QueriesAgree .disabled disabledThenEnabled ⟨10, 39⟩ ↔
      Answers .disabled (adjoining 10 (inside disabledThenEnabled ⟨10, 39⟩))
        (beyondGap 10 (inside disabledThenEnabled ⟨10, 39⟩)) disabledThenEnabled ⟨10, 39⟩ :=
  queriesAgree_iff sound_disabledThenEnabled (by decide)

end ParamContainer

end Vpsim.Core
