import Vpsim.Core.ParameterPool
import Mathlib.Data.List.Pairwise

/-!
# When structural comparison decides equality of parameter sets

`operator==` compares the containers entry by entry. This decides whether two sets have the
same values when no two neighbours of a container could be merged. All operations end in
`defrag` but `setParameter`, which can leave a value in pieces: a range that is cut by the
entries it meets, or that continues a neighbour.
-/

namespace Vpsim.Core

open Vpsim.Lib

namespace ParamContainer

variable {V : Type}

/-- A range that would be stored as one entry and would not continue another one: it meets no
entry or lies inside one, and the addresses next to it do not hold the value already. -/
structure Fits (pc : ParamContainer V) (as : AddrSpace) (v : V) : Prop where
  one_piece : (∀ p ∈ pc, p.1.intersect as = false) ∨
    ∃ p ∈ pc, p.1.baseAddress ≤ as.baseAddress ∧ as.endAddress ≤ p.1.endAddress
  before : 0 < as.baseAddress → valueAt pc (as.baseAddress - 1) ≠ some v
  after : valueAt pc (as.endAddress + 1) ≠ some v

/-! ## Neighbours -/

/-- Two entries that touch have different values. -/
def TouchingDiffer (pc : ParamContainer V) : Prop :=
  ∀ p ∈ pc, ∀ q ∈ pc, p.1.endAddress + 1 = q.1.baseAddress → p.2 ≠ q.2

/-- Entries of a sound container that touch are neighbours, so they are what `defrag` merges. -/
theorem compact_iff_touchingDiffer [DecidableEq V] {pc : ParamContainer V} (hs : Sound pc) :
    Compact pc ↔ TouchingDiffer pc := by
  constructor
  · intro h
    induction pc with
    | nil => exact fun p hp => absurd hp List.not_mem_nil
    | cons head rest ih =>
      have hsrest : Sound rest := hs.sublist (List.sublist_cons_self _ _)
      have hord := List.pairwise_cons.mp hs.ordered
      intro p hp q hq htouch
      have hqwf := hs.wellFormed q hq
      rcases List.mem_cons.mp hp with rfl | hp'
      · intro hval
        refine h.valueAt_succ hs (hs.apart.valueAt_eq_some.mpr ⟨q.1, ?_, ?_⟩)
        · rw [hval]
          exact hq
        · rw [htouch]
          exact hqwf.base_mem
      · rcases List.mem_cons.mp hq with rfl | hq'
        · have hlt := hord.1 p hp'
          have hple := (hsrest.wellFormed p hp').base_le_end
          have hqle := hqwf.base_le_end
          omega
        · exact ih hsrest h.tail p hp' q hq' htouch
  · intro h
    unfold Compact
    fun_induction defragOnce pc with
    | case1 as1 p1 as2 p2 rest hmerge =>
      have hend := (hs.wellFormed (as2, p2) (by simp)).end_lt
      have hle := (hs.wellFormed (as2, p2) (by simp)).base_le_end
      have hlt : as1.endAddress < as2.baseAddress :=
        (List.pairwise_cons.mp hs.ordered).1 (as2, p2) List.mem_cons_self
      rw [Nat.mod_eq_of_lt (by dsimp only at *; omega)] at hmerge
      exact absurd hmerge.2 (h (as1, p1) (by simp) (as2, p2) (by simp) hmerge.1)
    | case2 as1 p1 as2 p2 rest hmerge ih =>
      rw [Option.map_eq_none_iff]
      exact ih (hs.sublist (List.sublist_cons_self _ _)) fun p hp q hq =>
        h p (List.mem_cons_of_mem _ hp) q (List.mem_cons_of_mem _ hq)
    | case3 => rfl

/-! ## Setting a range that fits -/

/-- Without a conflict the entry is added. -/
theorem mem_setParameterRec_of_apart (pick : V → V → V) (fuel : ℕ) {pc : ParamContainer V} {as : AddrSpace}
    (v : V) (h : ∀ p ∈ pc, p.1.intersect as = false) (q : AddrSpace × V) :
    q ∈ setParameterRec pick (fuel + 1) pc as v ↔ q ∈ pc ∨ q = (as, v) := by
  have hnone : pc.find? (fun p => p.1.intersect as) = none := by
    rw [List.find?_eq_none]
    exact fun p hp => by simp [h p hp]
  rw [setParameterRec, hnone]
  simp only [(sort_perm _).mem_iff, List.mem_append, List.mem_singleton]

/-- Pieces that meet neither the entries nor each other are all added. -/
theorem mem_foldl_set_of_apart (pick : V → V → V) {fuel : ℕ} {us : List AddrSpace} {pc : ParamContainer V}
    (v : V) (h : ∀ u ∈ us, ∀ p ∈ pc, p.1.intersect u = false)
    (hap : us.Pairwise fun u w => u.intersect w = false) (q : AddrSpace × V) :
    q ∈ us.foldl (fun pc u => setParameterRec pick (fuel + 1) pc u v) pc ↔
      q ∈ pc ∨ ∃ u ∈ us, q = (u, v) := by
  induction us generalizing pc with
  | nil => simp
  | cons u us ih =>
    rw [List.pairwise_cons] at hap
    have hmem := mem_setParameterRec_of_apart pick fuel v (h u List.mem_cons_self)
    rw [List.foldl_cons, ih _ hap.2]
    · rw [hmem q]
      simp only [List.mem_cons, exists_eq_or_imp]
      tauto
    · intro w hw p hp
      rcases (hmem p).mp hp with hp | rfl
      · exact h w (List.mem_cons_of_mem _ hw) p hp
      · exact hap.1 w hw

/-- An address of a sound container belongs to one entry. -/
theorem Sound.eq_of_mem {pc : ParamContainer V} (hs : Sound pc) {p q : AddrSpace × V} (hp : p ∈ pc)
    (hq : q ∈ pc) {a : ℕ} (hpa : a ∈ p.1) (hqa : a ∈ q.1) : p = q := by
  by_contra hne
  have hsymm : Std.Symm fun p q : AddrSpace × V => ∀ a ∈ p.1, a ∉ q.1 :=
    ⟨fun p q h a hq hp => h a hp hq⟩
  exact hs.disjoint.forall hp hq hne a hpa hqa

/-- The only entry that meets a range inside `p` is `p`. -/
theorem Sound.eq_of_meets_inside {pc : ParamContainer V} (hs : Sound pc) {as : AddrSpace}
    (has : as.WellFormed) {p : AddrSpace × V} (hp : p ∈ pc) (hbase : p.1.baseAddress ≤ as.baseAddress)
    (hend : as.endAddress ≤ p.1.endAddress) {r : AddrSpace × V} (hr : r ∈ pc)
    (hmeet : r.1.intersect as = true) : r = p := by
  obtain ⟨a, har, haas⟩ := (AddrSpace.intersect_iff_exists_mem (hs.wellFormed r hr) has).mp hmeet
  refine hs.eq_of_mem hr hp har ?_
  rw [AddrSpace.mem_def] at haas ⊢
  omega

theorem find_conflict_inside {pc : ParamContainer V} (hs : Sound pc) {as : AddrSpace} (has : as.WellFormed)
    {p : AddrSpace × V} (hp : p ∈ pc) (hbase : p.1.baseAddress ≤ as.baseAddress)
    (hend : as.endAddress ≤ p.1.endAddress) : pc.find? (fun r => r.1.intersect as) = some p := by
  have hle := has.base_le_end
  cases hf : pc.find? (fun r => r.1.intersect as) with
  | none =>
    refine absurd (AddrSpace.intersect_iff.mpr ⟨?_, ?_⟩) (List.find?_eq_none.mp hf p hp)
    · omega
    · omega
  | some r =>
    obtain ⟨l, rest, hpc, -, hr⟩ := erase_conflict hf
    rw [hs.eq_of_meets_inside has hp hbase hend (by rw [hpc]; simp) hr]

/-- Taking out an entry takes out no other one, and leaves no copy of it. -/
theorem Sound.mem_erase {pc l rest : ParamContainer V} (hs : Sound pc) {p : AddrSpace × V}
    (hpc : pc = l ++ p :: rest) (r : AddrSpace × V) : r ∈ l ++ rest ↔ r ∈ pc ∧ r ≠ p := by
  have hpwf : p.1.WellFormed := hs.wellFormed p (by rw [hpc]; simp)
  have hnodup : p ∉ l ++ rest := by
    intro hin
    rw [hpc] at hs
    have hdis := List.pairwise_append.mp hs.disjoint
    rcases List.mem_append.mp hin with hin | hin
    · exact hdis.2.2 p hin p List.mem_cons_self _ hpwf.base_mem hpwf.base_mem
    · exact (List.pairwise_cons.mp hdis.2.1).1 p hin _ hpwf.base_mem hpwf.base_mem
  rw [hpc]
  simp only [List.mem_append, List.mem_cons] at hnodup ⊢
  constructor
  · intro hr
    refine ⟨by tauto, ?_⟩
    rintro rfl
    exact hnodup hr
  · rintro ⟨hr | rfl | hr, hne⟩
    · exact Or.inl hr
    · exact absurd rfl hne
    · exact Or.inr hr

/-- Inside one entry: the entry is replaced by the new one and by what is left of the old one on
both sides. -/
theorem mem_setParameterHelper_inside (pick : V → V → V) {pc : ParamContainer V} (hs : Sound pc)
    {as : AddrSpace} (has : as.WellFormed) (v : V) {p : AddrSpace × V} (hp : p ∈ pc)
    (hbase : p.1.baseAddress ≤ as.baseAddress) (hend : as.endAddress ≤ p.1.endAddress)
    (q : AddrSpace × V) :
    q ∈ setParameterHelper pick pc as v ↔
      (q ∈ pc ∧ q ≠ p) ∨ q = (as, pick p.2 v) ∨ ∃ u ∈ p.1.relativeComplement as, q = (u, p.2) := by
  have hpwf := hs.wellFormed p hp
  have hfind := find_conflict_inside hs has hp hbase hend
  obtain ⟨l, rest, hpc, herase, hint⟩ := erase_conflict hfind
  have hmem := hs.mem_erase hpc
  obtain ⟨k, hk⟩ : ∃ k, weight pc + as.size = k + 1 :=
    Nat.exists_eq_succ_of_ne_zero (by have := has.size_pos; omega)
  have hcut : as.relativeComplement p.1 = [] := by
    unfold AddrSpace.relativeComplement
    rw [if_neg (by omega), if_neg (by omega), List.append_nil]
  have hinter : p.1.intersection as = as := by
    rw [AddrSpace.intersection, if_pos hint, Nat.max_eq_right hbase, Nat.min_eq_right hend]
  rw [setParameterHelper, hk, setParameterRec, hfind]
  simp only [herase, hcut, List.foldl_nil, hinter]
  have hothers : ∀ r ∈ l ++ rest, r.1.intersect as = false := by
    intro r hr
    rw [Bool.eq_false_iff]
    intro hra
    exact ((hmem r).mp hr).2 (hs.eq_of_meets_inside has hp hbase hend ((hmem r).mp hr).1 hra)
  have hpicked := mem_setParameterRec_of_apart pick k (pick p.2 v) hothers
  rw [mem_foldl_set_of_apart, hpicked, hmem]
  · tauto
  · -- A piece of the old entry meets neither the other entries nor the new one.
    intro u hu r hr
    rw [Bool.eq_false_iff]
    intro hru
    have huwf := hpwf.relativeComplement hint hu
    have hsub : ∀ a ∈ u, a ∈ p.1 ∧ a ∉ as := fun a ha =>
      (AddrSpace.exists_mem_relativeComplement hint).mp ⟨u, hu, ha⟩
    rcases (hpicked r).mp hr with hr | rfl
    · obtain ⟨hrpc, hne⟩ := (hmem r).mp hr
      obtain ⟨a, har, hau⟩ := (AddrSpace.intersect_iff_exists_mem (hs.wellFormed r hrpc) huwf).mp hru
      exact hne (hs.eq_of_mem hrpc hp har (hsub a hau).1)
    · obtain ⟨a, har, hau⟩ := (AddrSpace.intersect_iff_exists_mem has huwf).mp hru
      exact (hsub a hau).2 har
  · refine (p.1.relativeComplement_pairwise has).imp_of_mem fun {u w} hu hw huw => ?_
    rw [Bool.eq_false_iff]
    intro hmeets
    obtain ⟨a, hau, haw⟩ := (AddrSpace.intersect_iff_exists_mem (hpwf.relativeComplement hint hu)
      (hpwf.relativeComplement hint hw)).mp hmeets
    exact huw a hau haw

/-- An entry of a container after a range is set in one piece: the new entry, or an old one that
may have been cut at the new range. -/
theorem eq_or_cut_of_one_piece (pick : V → V → V) {pc : ParamContainer V} (hs : Sound pc) {as : AddrSpace}
    (has : as.WellFormed) (v : V)
    (hone : (∀ p ∈ pc, p.1.intersect as = false) ∨
      ∃ p ∈ pc, p.1.baseAddress ≤ as.baseAddress ∧ as.endAddress ≤ p.1.endAddress)
    {q : AddrSpace × V} (hq : q ∈ setParameterHelper pick pc as v) :
    q.1 = as ∨ ∃ o ∈ pc, q.2 = o.2 ∧ q.1.baseAddress ∈ o.1 ∧ q.1.endAddress ∈ o.1 ∧
      (q.1.baseAddress = o.1.baseAddress ∨ q.1.baseAddress = as.endAddress + 1) ∧
      (q.1.endAddress = o.1.endAddress ∨ q.1.endAddress + 1 = as.baseAddress) := by
  have hle := has.base_le_end
  have hwhole : q ∈ pc → ∃ o ∈ pc, q.2 = o.2 ∧ q.1.baseAddress ∈ o.1 ∧ q.1.endAddress ∈ o.1 ∧
      (q.1.baseAddress = o.1.baseAddress ∨ q.1.baseAddress = as.endAddress + 1) ∧
      (q.1.endAddress = o.1.endAddress ∨ q.1.endAddress + 1 = as.baseAddress) := fun hq =>
    ⟨q, hq, rfl, (hs.wellFormed q hq).base_mem, ⟨(hs.wellFormed q hq).base_le_end, Nat.le_refl _⟩,
      Or.inl rfl, Or.inl rfl⟩
  rcases hone with hapart | ⟨p, hp, hbase, hend⟩
  · rcases (mem_setParameterRec_of_apart pick _ v hapart q).mp hq with hq | rfl
    · exact Or.inr (hwhole hq)
    · exact Or.inl rfl
  · rcases (mem_setParameterHelper_inside pick hs has v hp hbase hend q).mp hq with hq | rfl | ⟨u, hu, rfl⟩
    · exact Or.inr (hwhole hq.1)
    · exact Or.inl rfl
    · refine Or.inr ⟨p, hp, rfl, ?_⟩
      simp only [AddrSpace.mem_def]
      rcases AddrSpace.mem_relativeComplement.mp hu with ⟨hlt, rfl⟩ | ⟨hlt, rfl⟩
      · dsimp only
        omega
      · dsimp only
        omega

/-- A range that fits leaves a container in which nothing can be merged. -/
theorem touchingDiffer_setParameterHelper {pc : ParamContainer V} (hs : Sound pc) (hd : TouchingDiffer pc)
    {as : AddrSpace} (has : as.WellFormed) {v : V} (hfit : Fits pc as v) :
    TouchingDiffer (setParameterHelper (fun _ new => new) pc as v) := by
  have hle := has.base_le_end
  obtain ⟨hsound, hval⟩ := sound_setParameterHelper (fun _ new => new) hs has v
  have hnew : ∀ q ∈ setParameterHelper (fun _ new => new) pc as v, q.1 = as → q.2 = v := by
    intro q hq hqas
    have hin : as.baseAddress ∈ q.1 := hqas ▸ has.base_mem
    have := hsound.apart.valueAt_eq_some.mpr ⟨q.1, hq, hin⟩
    rw [hval, overlay, if_pos has.base_mem] at this
    cases hold : valueAt pc as.baseAddress with
    | none => rw [hold] at this; exact (Option.some.inj this).symm
    | some w => rw [hold] at this; exact (Option.some.inj this).symm
  intro q hq r hr htouch
  rcases eq_or_cut_of_one_piece _ hs has v hfit.one_piece hq with hqas | ⟨o, ho, hoq, hob, hoe, hcutb, hcute⟩
  · rcases eq_or_cut_of_one_piece _ hs has v hfit.one_piece hr with hras | ⟨o, ho, hor, hob, -, -, -⟩
    · rw [hqas, hras] at htouch
      omega
    · -- The new range is followed by an old value, which is another one.
      rw [hnew q hq hqas, hor]
      rintro rfl
      rw [← htouch, hqas] at hob
      exact hfit.after (hs.apart.valueAt_eq_some.mpr ⟨o.1, ho, hob⟩)
  · rcases eq_or_cut_of_one_piece _ hs has v hfit.one_piece hr with hras | ⟨o', ho', hor, hob', hoe', hcutb', hcute'⟩
    · rw [hnew r hr hras, hoq]
      rintro rfl
      rw [hras] at htouch
      refine hfit.before (by omega) (hs.apart.valueAt_eq_some.mpr ⟨o.1, ho, ?_⟩)
      rw [← htouch, Nat.add_sub_cancel]
      exact hoe
    · rw [hoq, hor]
      rw [AddrSpace.mem_def] at hob hoe hob' hoe'
      by_cases hsame : o = o'
      · subst hsame
        omega
      · refine hd o ho o' ho' ?_
        have hapart : ¬ ∃ a, a ∈ o.1 ∧ a ∈ o'.1 := by
          intro hin
          exact hin.elim fun a ha => hsame (hs.eq_of_mem ho ho' ha.1 ha.2)
        rw [← AddrSpace.intersect_iff_exists_mem (hs.wellFormed o ho) (hs.wellFormed o' ho'),
          AddrSpace.intersect_iff] at hapart
        omega

/-- `equalHelper` of `ParameterSet::operator==`: as many entries, each with the same range and
the same value. -/
def equalHelper [DecidableEq V] : ParamContainer V → ParamContainer V → Bool
  | [], [] => true
  | p :: a, q :: b => if p.1 ≠ q.1 ∨ p.2 ≠ q.2 then false else equalHelper a b
  | _, _ => false

theorem equalHelper_iff [DecidableEq V] {a b : ParamContainer V} : equalHelper a b = true ↔ a = b := by
  fun_induction equalHelper a b with
  | case1 => simp
  | case2 p a q b hne =>
    refine iff_of_false Bool.false_ne_true fun h => ?_
    obtain ⟨rfl, -⟩ := List.cons.inj h
    exact hne.elim (fun h => h rfl) fun h => h rfl
  | case3 p a q b heq ih =>
    rw [not_or, not_not, not_not] at heq
    rw [ih, List.cons.injEq, Prod.ext_iff]
    exact (and_iff_right heq).symm
  | case4 a b h1 h2 =>
    refine iff_of_false Bool.false_ne_true ?_
    rintro rfl
    cases a with
    | nil => exact h1 rfl rfl
    | cons p a => exact h2 p a p a rfl rfl

end ParamContainer

namespace ParameterSet

variable {D R : Type}

/-- `ParameterSet::operator==`. -/
def operatorEq [LinearOrder D] [DecidableEq R] (ps that : ParameterSet D R) : Bool :=
  ps.blockingTLMEnabledParameter.equalHelper that.blockingTLMEnabledParameter &&
    ps.approximateDelayParameter.equalHelper that.approximateDelayParameter &&
    ps.approximateTraversalRateParameter.equalHelper that.approximateTraversalRateParameter

theorem operatorEq_iff [LinearOrder D] [DecidableEq R] {ps that : ParameterSet D R} :
    ps.operatorEq that = true ↔ ps = that := by
  simp only [operatorEq, Bool.and_eq_true, ParamContainer.equalHelper_iff, and_assoc]
  obtain ⟨b, d, r⟩ := ps
  obtain ⟨b', d', r'⟩ := that
  rw [ParameterSet.mk.injEq]

/-- The two sets define the same 64-bit addresses, with the same values. -/
def SameValues (ps that : ParameterSet D R) : Prop :=
  ∀ a < AddrSpace.addrCount,
    valueAt ps.blockingTLMEnabledParameter a = valueAt that.blockingTLMEnabledParameter a ∧
    valueAt ps.approximateDelayParameter a = valueAt that.approximateDelayParameter a ∧
    valueAt ps.approximateTraversalRateParameter a = valueAt that.approximateTraversalRateParameter a

/-- No two neighbours of any of the three containers can be merged. -/
structure Compact [LinearOrder D] [DecidableEq R] (ps : ParameterSet D R) : Prop where
  blocking : ps.blockingTLMEnabledParameter.Compact
  delay : ps.approximateDelayParameter.Compact
  rate : ps.approximateTraversalRateParameter.Compact

end ParameterSet

namespace ParamContainer

/-- A sound container has no values outside the 64 bits. -/
theorem Sound.valueAt_of_le {V : Type} {pc : ParamContainer V} (h : Sound pc) {a : ℕ}
    (ha : AddrSpace.addrCount ≤ a) : valueAt pc a = none := by
  rw [valueAt_eq_none]
  intro p hp hpa
  have hend := (h.wellFormed p hp).end_lt
  rw [AddrSpace.mem_def] at hpa
  omega

theorem Compact.eq_of_values {V : Type} [DecidableEq V] {pc pc' : ParamContainer V} (h : Compact pc)
    (h' : Compact pc') (hs : Sound pc) (hs' : Sound pc')
    (heq : ∀ a < AddrSpace.addrCount, valueAt pc a = valueAt pc' a) : pc = pc' := by
  refine h.ext h' hs hs' fun a => ?_
  rcases Nat.lt_or_ge a AddrSpace.addrCount with ha | ha
  · exact heq a ha
  · rw [hs.valueAt_of_le ha, hs'.valueAt_of_le ha]

end ParamContainer

namespace ParameterSet

variable {D R : Type} [LinearOrder D] [DecidableEq R]

/-- On compact sets the structural comparison decides whether the values are the same. -/
theorem operatorEq_iff_sameValues {ps that : ParameterSet D R} (hs : ps.Sound) (hs' : that.Sound)
    (h : ps.Compact) (h' : that.Compact) : ps.operatorEq that = true ↔ ps.SameValues that := by
  rw [operatorEq_iff]
  constructor
  · rintro rfl a -
    exact ⟨rfl, rfl, rfl⟩
  · intro hval
    have hb := h.blocking.eq_of_values h'.blocking hs.blocking hs'.blocking fun a ha => (hval a ha).1
    have hd := h.delay.eq_of_values h'.delay hs.delay hs'.delay fun a ha => (hval a ha).2.1
    have hr := h.rate.eq_of_values h'.rate hs.rate hs'.rate fun a ha => (hval a ha).2.2
    obtain ⟨b, d, r⟩ := ps
    rw [ParameterSet.mk.injEq]
    exact ⟨hb, hd, hr⟩

end ParameterSet

/-- For each container of a set, a condition under which nothing in it can be merged. -/
structure Whole where
  blocking : Prop
  delay : Prop
  rate : Prop

namespace Whole

variable {D R : Type} [LinearOrder D] [DecidableEq R]

/-- No condition is left open. -/
def All (w : Whole) : Prop := w.blocking ∧ w.delay ∧ w.rate

/-- The conditions are enough for the containers of `ps`. -/
structure Ensures (w : Whole) (ps : ParameterSet D R) : Prop where
  blocking : w.blocking → ps.blockingTLMEnabledParameter.Compact
  delay : w.delay → ps.approximateDelayParameter.Compact
  rate : w.rate → ps.approximateTraversalRateParameter.Compact

/-- The conditions after a parameter is set: its range has to fit in the container. -/
def set (w : Whole) (ps : ParameterSet D R) (as : AddrSpace) : ModuleParameter D R → Whole
  | .blockingTLMEnabled v => { w with blocking := w.blocking ∧ ps.blockingTLMEnabledParameter.Fits as v }
  | .approximateDelay d => { w with delay := w.delay ∧ ps.approximateDelayParameter.Fits as d }
  | .approximateTraversalRate r => { w with rate := w.rate ∧ ps.approximateTraversalRateParameter.Fits as r }

theorem ensures_set {w : Whole} {ps : ParameterSet D R} (h : w.Ensures ps) (hs : ps.Sound) {as : AddrSpace}
    (has : as.WellFormed) (param : ModuleParameter D R) :
    (w.set ps as param).Ensures (ps.setParameter as param) := by
  have hcontainer : ∀ {V : Type} [DecidableEq V] {pc : ParamContainer V} {v : V}, pc.Sound → pc.Compact →
      pc.Fits as v → (ParamContainer.setParameterHelper (fun _ new => new) pc as v).Compact := by
    intro V _ pc v hpc hcompact hfit
    rw [ParamContainer.compact_iff_touchingDiffer (ParamContainer.sound_setParameterHelper _ hpc has v).1]
    exact ParamContainer.touchingDiffer_setParameterHelper hpc
      ((ParamContainer.compact_iff_touchingDiffer hpc).mp hcompact) has hfit
  cases param with
  | blockingTLMEnabled v =>
    exact ⟨fun hw => hcontainer hs.blocking (h.blocking hw.1) hw.2, h.delay, h.rate⟩
  | approximateDelay d => exact ⟨h.blocking, fun hw => hcontainer hs.delay (h.delay hw.1) hw.2, h.rate⟩
  | approximateTraversalRate r =>
    exact ⟨h.blocking, h.delay, fun hw => hcontainer hs.rate (h.rate hw.1) hw.2⟩

end Whole

namespace PoolOp

variable {ι D R : Type}

/-- The members of the restriction of a `trim` have no address in common. -/
def DisjointTrim : PoolOp ι D R → Prop
  | .trim _ restriction _ => restriction.members.Pairwise fun s t => ∀ a ∈ s, a ∉ t
  | _ => True

theorem DisjointTrim.trimsApart {op : PoolOp ι D R} (h : op.DisjointTrim) (pool : Pool ι D R) :
    op.TrimsApart pool := by
  cases op with
  | trim i restriction hwf =>
    intro a _ s hs t ht has hat
    by_contra hne
    have hsymm : Std.Symm fun s t : AddrSpace => ∀ a ∈ s, a ∉ t := ⟨fun s t h a ht hs => h a hs ht⟩
    exact List.Pairwise.forall h hs ht hne a has hat
  | _ => trivial

variable [LinearOrder D] [DecidableEq R]

/-- The conditions on empty sets. -/
def wholeEmpty : ι → Whole := fun _ => ⟨True, True, True⟩

theorem ensures_empty (k : ι) : ((wholeEmpty : ι → Whole) k).Ensures (emptyPool (D := D) (R := R) k) :=
  ⟨fun _ => rfl, fun _ => rfl, fun _ => rfl⟩

variable [DecidableEq ι]

/-- Replacing one set of a pool and its conditions keeps the conditions of all sets. -/
theorem ensures_update {pool : Pool ι D R} {whole : ι → Whole} (h : ∀ k, (whole k).Ensures (pool k)) (i : ι)
    {ps : ParameterSet D R} {w : Whole} (hw : w.Ensures ps) (k : ι) :
    (Function.update whole i w k).Ensures (Function.update pool i ps k) := by
  by_cases hk : k = i
  · subst hk
    rw [Function.update_self, Function.update_self]
    exact hw
  · rw [Function.update_of_ne hk, Function.update_of_ne hk]
    exact h k

variable [Add D] [HMul D R D]

/-- The conditions on the sets of a pool after an operation: one that ends in `defrag`, or that
empties the set, leaves no condition on the containers it rebuilds. -/
def wholeAfter (pool : Pool ι D R) (whole : ι → Whole) : PoolOp ι D R → ι → Whole
  | .setParameter i as _ param => Function.update whole i ((whole i).set (pool i) as param)
  | .mergeImportedParam i _ _ => Function.update whole i ⟨True, True, (whole i).rate⟩
  | .addExportedParam i _ _ => Function.update whole i ⟨True, True, (whole i).rate⟩
  | .assign i j => Function.update whole i (if i = j then ⟨True, True, True⟩ else whole j)
  | .trim i _ _ => Function.update whole i ⟨True, True, True⟩

/-- The conditions on the sets of a pool after a sequence of operations. -/
def wholeAfterAll : Pool ι D R → (ι → Whole) → List (PoolOp ι D R) → ι → Whole
  | _, whole, [] => whole
  | pool, whole, op :: ops => wholeAfterAll (op.apply pool) (op.wholeAfter pool whole) ops

/-- One operation keeps the conditions sufficient. -/
theorem ensures_wholeAfter {pool : Pool ι D R} {whole : ι → Whole} (hs : ∀ k, (pool k).Sound)
    (h : ∀ k, (whole k).Ensures (pool k)) (op : PoolOp ι D R) (k : ι) :
    (op.wholeAfter pool whole k).Ensures (op.apply pool k) := by
  cases op with
  | setParameter i as has param => exact ensures_update h i (Whole.ensures_set (h i) (hs i) has param) k
  | mergeImportedParam i j hne =>
    apply ensures_update h i (w := ⟨True, True, (whole i).rate⟩) (k := k)
    refine ⟨fun _ => ?_, fun _ => ?_, (h i).rate⟩
    · exact ParamContainer.compact_defrag _
    · exact ParamContainer.compact_defrag _
  | addExportedParam i j hne =>
    apply ensures_update h i (w := ⟨True, True, (whole i).rate⟩) (k := k)
    refine ⟨fun _ => ?_, fun _ => ?_, (h i).rate⟩
    · exact ParamContainer.compact_defrag _
    · exact ParamContainer.compact_defrag _
  | assign i j =>
    refine ensures_update h i ?_ k
    split
    · exact ⟨fun _ => rfl, fun _ => rfl, fun _ => rfl⟩
    · exact h j
  | trim i restriction hwf =>
    refine ensures_update h i ⟨fun _ => ?_, fun _ => ?_, fun _ => ?_⟩ k
    · exact ParamContainer.compact_defrag _
    · exact ParamContainer.compact_defrag _
    · exact ParamContainer.compact_defrag _

/-- After a sequence of operations all sets are sound, and compact where the conditions hold. -/
theorem sound_and_ensures_run {pool : Pool ι D R} {whole : ι → Whole} (hs : ∀ k, (pool k).Sound)
    (h : ∀ k, (whole k).Ensures (pool k)) {ops : List (PoolOp ι D R)} (hops : ∀ op ∈ ops, op.DisjointTrim)
    (k : ι) :
    (ops.foldl (fun pool op => op.apply pool) pool k).Sound ∧
      (wholeAfterAll pool whole ops k).Ensures (ops.foldl (fun pool op => op.apply pool) pool k) := by
  induction ops generalizing pool whole with
  | nil => exact ⟨hs k, h k⟩
  | cons op ops ih =>
    have hsound : ∀ i, (op.apply pool i).Sound :=
      (sound_apply_iff hs op).mpr ((hops op List.mem_cons_self).trimsApart pool)
    exact ih hsound (ensures_wholeAfter hs h op) fun o ho => hops o (List.mem_cons_of_mem _ ho)

/-- Two sets built from empty ones by any sequence of operations compare equal exactly when they
have the same values, provided that every range set since a container was last defragmented
fitted in it. -/
theorem operatorEq_iff_sameValues_of_whole {ops : List (PoolOp ι D R)} (hops : ∀ op ∈ ops, op.DisjointTrim)
    {i j : ι} (hi : (wholeAfterAll emptyPool wholeEmpty ops i).All)
    (hj : (wholeAfterAll emptyPool wholeEmpty ops j).All) :
    (ops.foldl (fun pool op => op.apply pool) emptyPool i).operatorEq
        (ops.foldl (fun pool op => op.apply pool) emptyPool j) = true ↔
      (ops.foldl (fun pool op => op.apply pool) emptyPool i).SameValues
        (ops.foldl (fun pool op => op.apply pool) emptyPool j) := by
  have hrun := sound_and_ensures_run (fun _ => ParameterSet.sound_empty) ensures_empty hops
  have hcompact : ∀ k, (wholeAfterAll emptyPool wholeEmpty ops k).All →
      (ops.foldl (fun pool op => op.apply pool) emptyPool k).Compact := fun k hk =>
    ⟨(hrun k).2.blocking hk.1, (hrun k).2.delay hk.2.1, (hrun k).2.rate hk.2.2⟩
  exact ParameterSet.operatorEq_iff_sameValues (hrun i).1 (hrun j).1 (hcompact i hi) (hcompact j hj)

theorem firstFive_wellFormed : (AddrSpace.mk 0 4).WellFormed := by decide

theorem nextFive_wellFormed : (AddrSpace.mk 5 9).WellFormed := by decide

theorem firstTen_wellFormed : (AddrSpace.mk 0 9).WellFormed := by decide

/-- One set gets a value on ten addresses at once, the other on five and then on the next five. -/
def atOnceAndInHalves : List (PoolOp Bool ℕ ℕ) :=
  [.setParameter false ⟨0, 9⟩ firstTen_wellFormed (.blockingTLMEnabled .enabled),
   .setParameter true ⟨0, 4⟩ firstFive_wellFormed (.blockingTLMEnabled .enabled),
   .setParameter true ⟨5, 9⟩ nextFive_wellFormed (.blockingTLMEnabled .enabled)]

/-- Both sets are enabled on the first ten addresses, but they do not compare equal. -/
theorem halves_compare_unequal :
    (atOnceAndInHalves.foldl (fun pool op => op.apply pool) emptyPool false).SameValues
        (atOnceAndInHalves.foldl (fun pool op => op.apply pool) emptyPool true) ∧
      ¬ (atOnceAndInHalves.foldl (fun pool op => op.apply pool) emptyPool false).operatorEq
        (atOnceAndInHalves.foldl (fun pool op => op.apply pool) emptyPool true) = true := by
  have hone : atOnceAndInHalves.foldl (fun pool op => op.apply pool) emptyPool false =
      ⟨[(⟨0, 9⟩, .enabled)], [], []⟩ := by decide +kernel
  have htwo : atOnceAndInHalves.foldl (fun pool op => op.apply pool) emptyPool true =
      ⟨[(⟨0, 4⟩, .enabled), (⟨5, 9⟩, .enabled)], [], []⟩ := by decide +kernel
  rw [hone, htwo]
  refine ⟨fun a _ => ⟨?_, rfl, rfl⟩, by decide⟩
  have hiff : a ∈ AddrSpace.mk 0 9 ↔ a ∈ AddrSpace.mk 0 4 ∨ a ∈ AddrSpace.mk 5 9 := by
    simp only [AddrSpace.mem_def]
    omega
  simp only [valueAt, valuesAt_cons, valuesAt_nil, List.append_nil, hiff]
  by_cases hlow : a ∈ AddrSpace.mk 0 4
  · simp only [hlow, true_or, if_true, List.singleton_append, List.head?_cons]
  · simp only [hlow, false_or, if_false, List.nil_append]

theorem wholeRange_wellFormed : ∀ s ∈ (SpaceSet.empty.insert AddrSpace.maxRange).members, s.WellFormed := by
  decide

/-- The second set trimmed to the whole address range, which puts its halves together. -/
def halvesTrimmed : List (PoolOp Bool ℕ ℕ) :=
  atOnceAndInHalves ++ [.trim true (SpaceSet.empty.insert AddrSpace.maxRange) wholeRange_wellFormed]

theorem operatorEq_iff_sameValues_halvesTrimmed :
    (halvesTrimmed.foldl (fun pool op => op.apply pool) emptyPool false).operatorEq
        (halvesTrimmed.foldl (fun pool op => op.apply pool) emptyPool true) = true ↔
      (halvesTrimmed.foldl (fun pool op => op.apply pool) emptyPool false).SameValues
        (halvesTrimmed.foldl (fun pool op => op.apply pool) emptyPool true) := by
  refine operatorEq_iff_sameValues_of_whole ?_ ?_ ?_
  · intro op hop
    simp only [halvesTrimmed, atOnceAndInHalves, List.cons_append, List.nil_append, List.mem_cons,
      List.not_mem_nil, or_false] at hop
    rcases hop with rfl | rfl | rfl | rfl
    · trivial
    · trivial
    · trivial
    · exact List.pairwise_singleton _ _
  · refine ⟨⟨trivial, ⟨Or.inl fun p hp => absurd hp List.not_mem_nil, fun h => absurd h (by decide), ?_⟩⟩,
      trivial, trivial⟩
    intro h
    cases h
  · exact ⟨trivial, trivial, trivial⟩

end PoolOp

end Vpsim.Core
