import Vpsim.Core.ParameterSetModifier
import Mathlib.Data.Int.Order.Basic
import Mathlib.Algebra.Order.Group.Int

/-!
# A chain of modifiers on its two kinds of argument

A translator moves every address by one signed offset and throws when an address leaves the 64
bits. The chain is walked from its last modifier for a parameter set and from its first for a
set of address spaces, so the two walks pass through different intermediate addresses. How far
a walk strays is given by the least and the greatest partial sum of the offsets.
-/

namespace Vpsim.Core

open Vpsim.Lib

namespace AddrSpace

/-- Both bounds are 64-bit addresses, in any order. -/
def Has64Bits (s : AddrSpace) : Prop := s.baseAddress < addrCount ∧ s.endAddress < addrCount

instance (s : AddrSpace) : Decidable s.Has64Bits := inferInstanceAs (Decidable (_ ∧ _))

theorem WellFormed.has64Bits {s : AddrSpace} (h : s.WellFormed) : s.Has64Bits :=
  ⟨h.base_le_end.trans_lt h.end_lt, h.end_lt⟩

/-- Both bounds stay 64-bit addresses when they move by any amount from `low` to `high`. -/
def Within (low high : ℤ) (s : AddrSpace) : Prop :=
  (0 ≤ s.baseAddress + low ∧ s.baseAddress + high < addrCount) ∧
    (0 ≤ s.endAddress + low ∧ s.endAddress + high < addrCount)

instance (low high : ℤ) (s : AddrSpace) : Decidable (s.Within low high) :=
  inferInstanceAs (Decidable (_ ∧ _))

/-- The range moved by a signed amount. -/
def moved (d : ℤ) (s : AddrSpace) : AddrSpace :=
  ⟨((s.baseAddress : ℤ) + d).toNat, ((s.endAddress : ℤ) + d).toNat⟩

theorem has64Bits_moved {d : ℤ} {s : AddrSpace} (h : s.Within d d) : (s.moved d).Has64Bits := by
  simp only [Within, Has64Bits, moved] at *
  omega

theorem moved_moved {d e : ℤ} {s : AddrSpace} (h : s.Within d d) : (s.moved d).moved e = s.moved (d + e) := by
  simp only [Within, moved, mk.injEq] at *
  omega

theorem moved_zero (s : AddrSpace) : s.moved 0 = s := by
  simp only [moved, Int.add_zero, Int.toNat_natCast]

/-- A first move of a walk, followed by the rest of the walk from there. -/
theorem within_moved_iff {d low high : ℤ} {s : AddrSpace} (hlow : low ≤ 0) (hhigh : 0 ≤ high) :
    s.Within d d ∧ (s.moved d).Within low high ↔ s.Within (d + low) (d + high) := by
  simp only [Within, moved]
  omega

/-- A last move of a walk, after the moves from `low` to `high` that end at `total`. -/
theorem within_and_moved_iff {d total low high : ℤ} {s : AddrSpace} (hlow : low ≤ total)
    (hhigh : total ≤ high) :
    s.Within low high ∧ (s.moved total).Within d d ↔
      s.Within (min low (total + d)) (max high (total + d)) := by
  simp only [Within, moved]
  omega

theorem Has64Bits.within_zero {s : AddrSpace} (h : s.Has64Bits) : s.Within 0 0 := by
  simp only [Within, Has64Bits] at *
  omega

theorem within_min_zero_iff {low high : ℤ} {s : AddrSpace} (h : s.Has64Bits) :
    s.Within (min 0 low) (max 0 high) ↔ s.Within low high := by
  simp only [Within, Has64Bits] at *
  omega

end AddrSpace

namespace ParameterSetModifier

open AddrSpace (Within moved Has64Bits)

variable {V D R : Type}

/-- The signed amount by which a modifier moves an address; a positive offset is subtracted. -/
def displacement : ParameterSetModifier → ℤ
  | .neutral => 0
  | .addressTranslator offset _ positive => if positive then -offset else offset

/-- The sum of the displacements of a chain. -/
def total : List ParameterSetModifier → ℤ
  | [] => 0
  | m :: previous => m.displacement + total previous

/-- The least partial sum of the displacements from the front of a chain. -/
def lowest : List ParameterSetModifier → ℤ
  | [] => 0
  | m :: previous => min 0 (m.displacement + lowest previous)

/-- The greatest partial sum of the displacements from the front of a chain. -/
def highest : List ParameterSetModifier → ℤ
  | [] => 0
  | m :: previous => max 0 (m.displacement + highest previous)

theorem lowest_le (chain : List ParameterSetModifier) : lowest chain ≤ 0 ∧ lowest chain ≤ total chain := by
  induction chain with
  | nil => exact ⟨le_rfl, le_rfl⟩
  | cons m previous ih =>
    rw [lowest, total]
    omega

theorem le_highest (chain : List ParameterSetModifier) :
    0 ≤ highest chain ∧ total chain ≤ highest chain := by
  induction chain with
  | nil => exact ⟨le_rfl, le_rfl⟩
  | cons m previous ih =>
    rw [highest, total]
    omega

/-! ## One translation -/

theorem shift_true_eq {offset a : ℕ} (hoff : offset < AddrSpace.addrCount) (ha : a < AddrSpace.addrCount) :
    shift offset true a = if offset ≤ a then a - offset else a + AddrSpace.addrCount - offset := by
  simp only [shift, if_true]
  split_ifs with hle
  · rw [show a + AddrSpace.addrCount - offset = (a - offset) + AddrSpace.addrCount by omega,
      Nat.add_mod_right, Nat.mod_eq_of_lt (by omega)]
  · rw [Nat.mod_eq_of_lt (by omega)]

theorem shift_false_eq {offset a : ℕ} (hoff : offset < AddrSpace.addrCount)
    (ha : a < AddrSpace.addrCount) :
    shift offset false a =
      if a + offset < AddrSpace.addrCount then a + offset else a + offset - AddrSpace.addrCount := by
  simp only [shift, Bool.false_eq_true, if_false]
  split_ifs with hlt
  · exact Nat.mod_eq_of_lt hlt
  · rw [Nat.mod_eq_sub_mod (by omega), Nat.mod_eq_of_lt (by omega)]

/-- The test made on a bound finds out whether it left the 64 bits; if not, it moved by the
displacement. -/
theorem shift_spec {offset a : ℕ} (hoff : offset < AddrSpace.addrCount) (positive : Bool)
    (ha : a < AddrSpace.addrCount) {d : ℤ} (hd : d = displacement (.addressTranslator offset hoff positive)) :
    ((positive = true ∧ shift offset positive a > a) ∨ (positive = false ∧ shift offset positive a < a) ↔
        ¬ (0 ≤ a + d ∧ a + d < AddrSpace.addrCount)) ∧
      (0 ≤ a + d ∧ a + d < AddrSpace.addrCount → shift offset positive a = ((a : ℤ) + d).toNat) := by
  cases positive with
  | true =>
    rw [displacement, if_pos rfl] at hd
    rw [shift_true_eq hoff ha]
    split_ifs with hle
    · simp only [true_and, false_and, or_false]
      omega
    · simp only [true_and, false_and, or_false]
      omega
  | false =>
    rw [displacement, if_neg Bool.false_ne_true] at hd
    rw [shift_false_eq hoff ha]
    split_ifs with hlt
    · simp only [true_and, false_and, false_or]
      omega
    · simp only [true_and, false_and, false_or]
      omega

/-- A translation throws exactly when a bound leaves the 64 bits, and otherwise moves the range. -/
theorem translate_eq {offset : ℕ} (hoff : offset < AddrSpace.addrCount) {positive : Bool} {s : AddrSpace}
    (hs : s.Has64Bits) {d : ℤ} (hd : d = displacement (.addressTranslator offset hoff positive)) :
    translate offset positive s = if s.Within d d then .ok (s.moved d) else .error .overflowError := by
  obtain ⟨hbase, hbase'⟩ := shift_spec hoff positive hs.1 hd
  obtain ⟨hend, hend'⟩ := shift_spec hoff positive hs.2 hd
  unfold translate
  dsimp only
  by_cases hin : s.Within d d
  · rw [if_pos hin, if_neg, hbase' hin.1, hend' hin.2]
    · rfl
    · intro hover
      rcases hover with h | h | h | h
      · exact hbase.mp (Or.inl h) hin.1
      · exact hbase.mp (Or.inr h) hin.1
      · exact hend.mp (Or.inl h) hin.2
      · exact hend.mp (Or.inr h) hin.2
  · rw [if_neg hin, if_pos]
    rcases not_and_or.mp hin with h | h
    · rcases hbase.mpr h with h | h
      · exact Or.inl h
      · exact Or.inr (Or.inl h)
    · rcases hend.mpr h with h | h
      · exact Or.inr (Or.inr (Or.inl h))
      · exact Or.inr (Or.inr (Or.inr h))

/-! ## One modifier -/

theorem translateContainer_eq {offset : ℕ} (hoff : offset < AddrSpace.addrCount) {positive : Bool}
    {pc : ParamContainer V} (hpc : ∀ p ∈ pc, p.1.Has64Bits) {d : ℤ}
    (hd : d = displacement (.addressTranslator offset hoff positive)) :
    translateContainer (translate offset positive) pc =
      if ∀ p ∈ pc, p.1.Within d d then .ok (pc.map fun p => (p.1.moved d, p.2))
      else .error .overflowError := by
  induction pc with
  | nil => rfl
  | cons p rest ih =>
    rw [translateContainer, translate_eq hoff (hpc p List.mem_cons_self) hd,
      ih fun q hq => hpc q (List.mem_cons_of_mem _ hq)]
    simp only [List.forall_mem_cons]
    by_cases hp : p.1.Within d d
    · by_cases hrest : ∀ q ∈ rest, q.1.Within d d
      · rw [if_pos hp, if_pos hrest, if_pos ⟨hp, hrest⟩]
        rfl
      · rw [if_pos hp, if_neg hrest, if_neg fun h => hrest h.2]
        rfl
    · rw [if_neg hp, if_neg (c := _ ∧ _) fun h => hp h.1]
      rfl

theorem translateMembers_spec {offset : ℕ} (hoff : offset < AddrSpace.addrCount) {positive : Bool}
    {l : List AddrSpace} (new : SpaceSet) (hl : ∀ s ∈ l, s.Has64Bits) {d : ℤ}
    (hd : d = displacement (.addressTranslator offset hoff positive)) :
    ((∀ s ∈ l, s.Within d d) → ∃ res, translateMembers (translate offset positive) l new = .ok res ∧
        ∀ k, k ∈ res.members ↔ k ∈ new.members ∨ ∃ s ∈ l, k = s.moved d) ∧
      (¬ (∀ s ∈ l, s.Within d d) →
        translateMembers (translate offset positive) l new = .error .overflowError) := by
  induction l generalizing new with
  | nil => exact ⟨fun _ => ⟨new, rfl, by simp⟩, fun h => absurd (List.forall_mem_nil _) h⟩
  | cons s rest ih =>
    rw [translateMembers, translate_eq hoff (hl s List.mem_cons_self) hd]
    obtain ⟨hok, herr⟩ := ih (new.insert (s.moved d)) fun t ht => hl t (List.mem_cons_of_mem _ ht)
    by_cases hs : s.Within d d
    · rw [if_pos hs]
      constructor
      · intro hall
        obtain ⟨res, hres, hmem⟩ := hok (List.forall_mem_cons.mp hall).2
        refine ⟨res, hres, fun k => ?_⟩
        rw [hmem k, SpaceSet.insert, SpaceSet.mem_insertMember]
        simp only [List.mem_cons, exists_eq_or_imp]
        tauto
      · intro hnall
        exact herr fun hrest => hnall (List.forall_mem_cons.mpr ⟨hs, hrest⟩)
    · rw [if_neg hs]
      exact ⟨fun hall => absurd (List.forall_mem_cons.mp hall).1 hs, fun _ => rfl⟩

end ParameterSetModifier

namespace ParameterSet

variable {D R : Type}

/-- The address ranges of the three containers. -/
def keys (ps : ParameterSet D R) : List AddrSpace :=
  ps.blockingTLMEnabledParameter.map Prod.fst ++ (ps.approximateDelayParameter.map Prod.fst ++
    ps.approximateTraversalRateParameter.map Prod.fst)

/-- The address ranges of the three containers, as a `std::set`. -/
def keySet (ps : ParameterSet D R) : SpaceSet :=
  ps.keys.foldl (fun set k => set.insert k) SpaceSet.empty

/-- Every range of the three containers moved by a signed amount. -/
def moved (d : ℤ) (ps : ParameterSet D R) : ParameterSet D R where
  blockingTLMEnabledParameter := ps.blockingTLMEnabledParameter.map fun p => (p.1.moved d, p.2)
  approximateDelayParameter := ps.approximateDelayParameter.map fun p => (p.1.moved d, p.2)
  approximateTraversalRateParameter := ps.approximateTraversalRateParameter.map fun p => (p.1.moved d, p.2)

theorem mem_foldl_insert {k : AddrSpace} {l : List AddrSpace} {set : SpaceSet} :
    k ∈ (l.foldl (fun set k => set.insert k) set).members ↔ k ∈ set.members ∨ k ∈ l := by
  induction l generalizing set with
  | nil => simp
  | cons s rest ih =>
    rw [List.foldl_cons, ih, SpaceSet.insert, SpaceSet.mem_insertMember, List.mem_cons]
    tauto

theorem mem_keySet {ps : ParameterSet D R} {k : AddrSpace} : k ∈ ps.keySet.members ↔ k ∈ ps.keys := by
  rw [keySet, mem_foldl_insert]
  simp [SpaceSet.empty]

theorem forall_mem_keys {P : AddrSpace → Prop} {ps : ParameterSet D R} :
    (∀ k ∈ ps.keys, P k) ↔ (∀ p ∈ ps.blockingTLMEnabledParameter, P p.1) ∧
      (∀ p ∈ ps.approximateDelayParameter, P p.1) ∧ ∀ p ∈ ps.approximateTraversalRateParameter, P p.1 := by
  simp only [keys, List.forall_mem_append, List.forall_mem_map]

theorem Sound.has64Bits {ps : ParameterSet D R} (h : ps.Sound) : ∀ k ∈ ps.keys, k.Has64Bits :=
  forall_mem_keys.mpr ⟨fun p hp => (h.blocking.wellFormed p hp).has64Bits,
    fun p hp => (h.delay.wellFormed p hp).has64Bits, fun p hp => (h.rate.wellFormed p hp).has64Bits⟩

theorem keys_moved (d : ℤ) (ps : ParameterSet D R) : (ps.moved d).keys = ps.keys.map (AddrSpace.moved d) := by
  simp only [keys, moved, List.map_append, List.map_map]
  rfl

theorem moved_zero (ps : ParameterSet D R) : ps.moved 0 = ps := by
  simp only [moved, AddrSpace.moved_zero, List.map_id']

theorem moved_moved {d e : ℤ} {ps : ParameterSet D R} (h : ∀ k ∈ ps.keys, k.Within d d) :
    (ps.moved d).moved e = ps.moved (d + e) := by
  obtain ⟨hb, hd, hr⟩ := forall_mem_keys.mp h
  simp only [moved, List.map_map, ParameterSet.mk.injEq]
  refine ⟨List.map_congr_left fun p hp => ?_, List.map_congr_left fun p hp => ?_,
    List.map_congr_left fun p hp => ?_⟩
  · exact Prod.ext (AddrSpace.moved_moved (hb p hp)) rfl
  · exact Prod.ext (AddrSpace.moved_moved (hd p hp)) rfl
  · exact Prod.ext (AddrSpace.moved_moved (hr p hp)) rfl

end ParameterSet

/-- A moved container has at an address the value that was there before the move. -/
theorem ParamContainer.valueAt_moved {V : Type} {d : ℤ} {pc : ParamContainer V}
    (h : ∀ p ∈ pc, p.1.Within d d) (a : ℕ) :
    valueAt (pc.map fun p => (p.1.moved d, p.2)) a =
      if 0 ≤ (a : ℤ) - d then valueAt pc ((a : ℤ) - d).toNat else none := by
  have hmem : ∀ p ∈ pc, (a ∈ p.1.moved d ↔ 0 ≤ (a : ℤ) - d ∧ ((a : ℤ) - d).toNat ∈ p.1) := by
    intro p hp
    have hin := h p hp
    simp only [AddrSpace.mem_def, AddrSpace.moved, AddrSpace.Within] at hin ⊢
    omega
  have hvals : valuesAt (pc.map fun p => (p.1.moved d, p.2)) a =
      if 0 ≤ (a : ℤ) - d then valuesAt pc ((a : ℤ) - d).toNat else [] := by
    rw [valuesAt, List.filterMap_map]
    split_ifs with hle
    · refine List.filterMap_congr fun p hp => ?_
      simp only [Function.comp_apply, hmem p hp, hle, true_and]
    · rw [List.filterMap_eq_nil_iff]
      intro p hp
      simp only [Function.comp_apply, hmem p hp, hle, false_and, if_false]
  rw [valueAt, hvals]
  split_ifs
  · rfl
  · rfl

namespace ParameterSetModifier

open AddrSpace (Within Has64Bits)

variable {D R : Type}

/-- A modifier moves a parameter set, or throws because some range of it leaves the 64 bits. -/
theorem applyNonRecursive_eq (m : ParameterSetModifier) {ps : ParameterSet D R}
    (hps : ∀ k ∈ ps.keys, k.Has64Bits) :
    m.applyNonRecursive ps =
      if ∀ k ∈ ps.keys, k.Within m.displacement m.displacement then .ok (ps.moved m.displacement)
      else .error .overflowError := by
  cases m with
  | neutral =>
    rw [displacement, if_pos fun k hk => (hps k hk).within_zero, ParameterSet.moved_zero]
    rfl
  | addressTranslator offset hoff positive =>
    obtain ⟨hb, hd, hr⟩ := ParameterSet.forall_mem_keys.mp hps
    rw [applyNonRecursive, translateContainer_eq hoff hb rfl, translateContainer_eq hoff hd rfl,
      translateContainer_eq hoff hr rfl]
    simp only [ParameterSet.forall_mem_keys]
    split_ifs with h1 h2 h3 h4 h5 h6 h7 <;> first | rfl | tauto

theorem apply_singleton (ps : ParameterSet D R) (m : ParameterSetModifier) :
    apply ps [m] = m.applyNonRecursive ps := rfl

/-- The walk over a parameter set starts with the last modifier, so a partial sum from the
back is what the sum from the front leaves of the total. -/
theorem apply_eq (chain : List ParameterSetModifier) {ps : ParameterSet D R}
    (hps : ∀ k ∈ ps.keys, k.Has64Bits) :
    apply ps chain =
      if ∀ k ∈ ps.keys, k.Within (total chain - highest chain) (total chain - lowest chain)
      then .ok (ps.moved (total chain)) else .error .overflowError := by
  induction chain with
  | nil =>
    rw [total, highest, lowest, Int.sub_zero, if_pos fun k hk => (hps k hk).within_zero, ParameterSet.moved_zero]
    rfl
  | cons m previous ih =>
    have hlow := lowest_le previous
    have hhigh := le_highest previous
    have hsplit : ∀ k : AddrSpace, k.Within (total (m :: previous) - highest (m :: previous))
        (total (m :: previous) - lowest (m :: previous)) ↔
          k.Within (total previous - highest previous) (total previous - lowest previous) ∧
            (k.moved (total previous)).Within m.displacement m.displacement := by
      intro k
      rw [AddrSpace.within_and_moved_iff (by omega) (by omega), total, highest, lowest]
      have h1 : m.displacement + total previous - max 0 (m.displacement + highest previous) =
          min (total previous - highest previous) (total previous + m.displacement) := by omega
      have h2 : m.displacement + total previous - min 0 (m.displacement + lowest previous) =
          max (total previous - lowest previous) (total previous + m.displacement) := by omega
      rw [h1, h2]
    rw [apply, ih]
    simp only [hsplit]
    by_cases hprev : ∀ k ∈ ps.keys, k.Within (total previous - highest previous)
        (total previous - lowest previous)
    · have hin : ∀ k ∈ ps.keys, k.Within (total previous) (total previous) := by
        intro k hk
        have := hprev k hk
        unfold AddrSpace.Within at this ⊢
        omega
      have hmid : ∀ k ∈ (ps.moved (total previous)).keys, k.Has64Bits := by
        rw [ParameterSet.keys_moved, List.forall_mem_map]
        exact fun k hk => AddrSpace.has64Bits_moved (hin k hk)
      rw [if_pos hprev]
      refine (applyNonRecursive_eq m hmid).trans ?_
      simp only [ParameterSet.moved_moved hin, ParameterSet.keys_moved, List.forall_mem_map, total,
        Int.add_comm m.displacement]
      by_cases hm : ∀ k ∈ ps.keys, (k.moved (total previous)).Within m.displacement m.displacement
      · rw [if_pos hm, if_pos fun k hk => ⟨hprev k hk, hm k hk⟩]
      · rw [if_neg hm, if_neg fun h => hm fun k hk => (h k hk).2]
    · rw [if_neg hprev, if_neg fun h => hprev fun k hk => (h k hk).1]
      rfl

theorem applySpacesNonRecursive_spec (m : ParameterSetModifier) {spaces : SpaceSet}
    (hsp : ∀ s ∈ spaces.members, s.Has64Bits) :
    ((∀ s ∈ spaces.members, s.Within m.displacement m.displacement) →
        ∃ res, m.applySpacesNonRecursive spaces = .ok res ∧
          ∀ k, k ∈ res.members ↔ ∃ s ∈ spaces.members, k = s.moved m.displacement) ∧
      (¬ (∀ s ∈ spaces.members, s.Within m.displacement m.displacement) →
        m.applySpacesNonRecursive spaces = .error .overflowError) := by
  cases m with
  | neutral =>
    constructor
    · intro _
      exact ⟨spaces, rfl, fun k => by simp [displacement, AddrSpace.moved_zero]⟩
    · intro hout
      exact absurd (fun s hs => (hsp s hs).within_zero) hout
  | addressTranslator offset hoff positive =>
    obtain ⟨hok, herr⟩ := translateMembers_spec hoff SpaceSet.empty hsp rfl
    refine ⟨fun hall => ?_, herr⟩
    obtain ⟨res, hres, hmem⟩ := hok hall
    exact ⟨res, hres, fun k => by rw [hmem k]; simp [SpaceSet.empty]⟩

/-- The walk over a set of address spaces starts with the first modifier. -/
theorem applySpaces_spec (chain : List ParameterSetModifier) (spaces : SpaceSet)
    (hsp : ∀ s ∈ spaces.members, s.Has64Bits) :
    ((∀ s ∈ spaces.members, s.Within (lowest chain) (highest chain)) →
        ∃ res, applySpaces spaces chain = .ok res ∧
          ∀ k, k ∈ res.members ↔ ∃ s ∈ spaces.members, k = s.moved (total chain)) ∧
      (¬ (∀ s ∈ spaces.members, s.Within (lowest chain) (highest chain)) →
        applySpaces spaces chain = .error .overflowError) := by
  induction chain generalizing spaces with
  | nil =>
    constructor
    · intro _
      exact ⟨spaces, rfl, fun k => by simp [total, AddrSpace.moved_zero]⟩
    · intro hout
      exact absurd (fun s hs => (hsp s hs).within_zero) hout
  | cons m previous ih =>
    have hlow := lowest_le previous
    have hhigh := le_highest previous
    have hsplit : ∀ s ∈ spaces.members, (s.Within (lowest (m :: previous)) (highest (m :: previous)) ↔
        s.Within m.displacement m.displacement ∧
          (s.moved m.displacement).Within (lowest previous) (highest previous)) := by
      intro s hs
      rw [lowest, highest, AddrSpace.within_min_zero_iff (hsp s hs),
        AddrSpace.within_moved_iff hlow.1 hhigh.1]
    rw [applySpaces]
    obtain ⟨hok, herr⟩ := applySpacesNonRecursive_spec m hsp
    by_cases hm : ∀ s ∈ spaces.members, s.Within m.displacement m.displacement
    · obtain ⟨mid, hmid, hmem⟩ := hok hm
      have hmid64 : ∀ s ∈ mid.members, s.Has64Bits := by
        intro s hs
        obtain ⟨t, ht, rfl⟩ := (hmem s).mp hs
        exact AddrSpace.has64Bits_moved (hm t ht)
      obtain ⟨hok', herr'⟩ := ih mid hmid64
      rw [hmid]
      constructor
      · intro hall
        obtain ⟨res, hres, hmemres⟩ := hok' fun s hs => by
          obtain ⟨t, ht, rfl⟩ := (hmem s).mp hs
          exact ((hsplit t ht).mp (hall t ht)).2
        refine ⟨res, hres, fun k => (hmemres k).trans ?_⟩
        rw [total]
        constructor
        · rintro ⟨s, hs, rfl⟩
          obtain ⟨t, ht, rfl⟩ := (hmem s).mp hs
          exact ⟨t, ht, AddrSpace.moved_moved (hm t ht)⟩
        · rintro ⟨t, ht, rfl⟩
          exact ⟨_, (hmem _).mpr ⟨t, ht, rfl⟩, (AddrSpace.moved_moved (hm t ht)).symm⟩
      · intro hnall
        refine herr' fun hall => hnall fun t ht => (hsplit t ht).mpr ⟨hm t ht, ?_⟩
        exact hall _ ((hmem _).mpr ⟨t, ht, rfl⟩)
    · rw [herr hm]
      exact ⟨fun hall => absurd (fun s hs => ((hsplit s hs).mp (hall s hs)).1) hm, fun _ => rfl⟩

/-! ## The two walks compared -/

/-- The two overloads of `apply` throw on the same chains, and when they do not, each range of
each container has become its image under the overload for address spaces, so the ranges of
the result are the images of the ranges. -/
structure ViewsAgree (chain : List ParameterSetModifier) (ps : ParameterSet D R) : Prop where
  throws_iff : apply ps chain = .error .overflowError ↔ applySpaces ps.keySet chain = .error .overflowError
  keys_eq : ∀ ps' images, apply ps chain = .ok ps' → applySpaces ps.keySet chain = .ok images →
    (∀ k, k ∈ ps'.keys ↔ k ∈ images.members) ∧
      List.Forall₂ (fun k k' => ∃ image, applySpaces (SpaceSet.empty.insert k) chain = .ok image ∧
        image.members = [k']) ps.keys ps'.keys

/-- Some range leaves the 64 bits when the offsets are added from the first modifier on. -/
def StraysForward (chain : List ParameterSetModifier) (ps : ParameterSet D R) : Prop :=
  ¬ ∀ k ∈ ps.keys, k.Within (lowest chain) (highest chain)

/-- Some range leaves the 64 bits when the offsets are added from the last modifier on. -/
def StraysBackward (chain : List ParameterSetModifier) (ps : ParameterSet D R) : Prop :=
  ¬ ∀ k ∈ ps.keys, k.Within (total chain - highest chain) (total chain - lowest chain)

/-- Moving the set that holds only one range moves this range. -/
theorem applySpaces_singleton (chain : List ParameterSetModifier) {k : AddrSpace} (hk : k.Has64Bits)
    (hin : k.Within (lowest chain) (highest chain)) :
    ∃ image, applySpaces (SpaceSet.empty.insert k) chain = .ok image ∧
      image.members = [k.moved (total chain)] := by
  have hone : ∀ s, s ∈ (SpaceSet.empty.insert k).members ↔ s = k := fun s => List.mem_singleton
  obtain ⟨image, himage, hmem⟩ := (applySpaces_spec chain (SpaceSet.empty.insert k)
    fun s hs => (hone s).mp hs ▸ hk).1 fun s hs => (hone s).mp hs ▸ hin
  refine ⟨image, himage, ?_⟩
  have honly : ∀ t ∈ image.members, t = k.moved (total chain) := by
    intro t ht
    obtain ⟨s, hs, rfl⟩ := (hmem t).mp ht
    rw [(hone s).mp hs]
  have hin' : k.moved (total chain) ∈ image.members := (hmem _).mpr ⟨k, (hone k).mpr rfl, rfl⟩
  -- A strictly ordered list whose members are all the same holds this member once.
  have hord := image.ordered
  cases himg : image.members with
  | nil => rw [himg] at hin'; cases hin'
  | cons t rest =>
    rw [himg] at honly hord
    cases rest with
    | nil => rw [honly t List.mem_cons_self]
    | cons u rest =>
      have htu := (List.pairwise_cons.mp hord).1 u List.mem_cons_self
      rw [honly t List.mem_cons_self, honly u (by simp)] at htu
      exact absurd htu (AddrSpace.lt_irrefl _)

/-- The ranges of the result are the images of the ranges, whatever the order of the walks. -/
theorem keys_apply (chain : List ParameterSetModifier) {ps ps' : ParameterSet D R} {images : SpaceSet}
    (hps : ∀ k ∈ ps.keys, k.Has64Bits) (h : apply ps chain = .ok ps')
    (himages : applySpaces ps.keySet chain = .ok images) :
    (∀ k, k ∈ ps'.keys ↔ k ∈ images.members) ∧
      List.Forall₂ (fun k k' => ∃ image, applySpaces (SpaceSet.empty.insert k) chain = .ok image ∧
        image.members = [k']) ps.keys ps'.keys := by
  have hset : ∀ s ∈ ps.keySet.members, s.Has64Bits := fun s hs => hps s (ParameterSet.mem_keySet.mp hs)
  obtain ⟨hok, herr⟩ := applySpaces_spec chain ps.keySet hset
  have hin : ∀ s ∈ ps.keySet.members, s.Within (lowest chain) (highest chain) := by
    by_contra hout
    rw [herr hout] at himages
    cases himages
  obtain ⟨res, hres, hmem⟩ := hok hin
  rw [hres] at himages
  obtain rfl := Except.ok.inj himages
  rw [apply_eq chain hps] at h
  split_ifs at h
  obtain rfl := Except.ok.inj h
  rw [ParameterSet.keys_moved]
  constructor
  · intro k
    simp only [hmem k, ParameterSet.mem_keySet, List.mem_map, eq_comm]
  · rw [List.forall₂_map_right_iff, List.forall₂_same]
    intro k hk
    exact applySpaces_singleton chain (hps k hk) (hin k (ParameterSet.mem_keySet.mpr hk))

theorem apply_throws_iff (chain : List ParameterSetModifier) {ps : ParameterSet D R}
    (hps : ∀ k ∈ ps.keys, k.Has64Bits) :
    apply ps chain = .error .overflowError ↔ StraysBackward chain ps := by
  rw [apply_eq chain hps, StraysBackward]
  split_ifs with h
  · exact iff_of_false (fun he => by cases he) fun hout => hout h
  · exact iff_of_true rfl h

theorem applySpaces_throws_iff (chain : List ParameterSetModifier) {ps : ParameterSet D R}
    (hps : ∀ k ∈ ps.keys, k.Has64Bits) :
    applySpaces ps.keySet chain = .error .overflowError ↔ StraysForward chain ps := by
  obtain ⟨hok, herr⟩ := applySpaces_spec chain ps.keySet
    fun s hs => hps s (ParameterSet.mem_keySet.mp hs)
  simp only [ParameterSet.mem_keySet] at hok herr
  constructor
  · intro h hin
    obtain ⟨res, hres, -⟩ := hok hin
    rw [hres] at h
    cases h
  · exact herr

/-- The two overloads agree exactly when the walk over the address spaces and the walk over the
parameter set both leave the 64 bits or both stay inside. -/
theorem viewsAgree_iff (chain : List ParameterSetModifier) {ps : ParameterSet D R}
    (hps : ∀ k ∈ ps.keys, k.Has64Bits) :
    ViewsAgree chain ps ↔ (StraysBackward chain ps ↔ StraysForward chain ps) := by
  constructor
  · intro h
    rw [← apply_throws_iff chain hps, ← applySpaces_throws_iff chain hps]
    exact h.throws_iff
  · intro h
    refine ⟨?_, fun ps' images => keys_apply chain hps⟩
    rw [apply_throws_iff chain hps, applySpaces_throws_iff chain hps]
    exact h

/-- One blocking parameter at the address zero. -/
def atZero : ParameterSet ℕ ℕ := ⟨[(⟨0, 0⟩, .enabled)], [], []⟩

theorem sixteen_lt : 16 < AddrSpace.addrCount := by decide

/-- Two translators that move addresses up agree on the address zero. -/
theorem viewsAgree_up :
    ViewsAgree [.addressTranslator 16 sixteen_lt false, .addressTranslator 16 sixteen_lt false] atZero :=
  (viewsAgree_iff _ (by decide)).mpr (by unfold StraysBackward StraysForward; decide)

/-- A translator that moves addresses down, with one attached that moves them up again: the
parameter at zero goes up first, the address space at zero goes down first and throws. -/
theorem viewsDisagree_down_up :
    ¬ ViewsAgree [.addressTranslator 16 sixteen_lt true, .addressTranslator 16 sixteen_lt false] atZero := by
  intro h
  have hspaces : applySpaces atZero.keySet [.addressTranslator 16 sixteen_lt true,
      .addressTranslator 16 sixteen_lt false] = .error .overflowError := by rfl
  have hset := h.throws_iff.mpr hspaces
  cases hset

end ParameterSetModifier

end Vpsim.Core
