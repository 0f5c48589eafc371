import Vpsim.Core.ParamContainer

/-!
# What the container algorithms compute

A container is sound when it is sorted by base address and its ranges are well formed and
pairwise disjoint. A sound container denotes a partial map from addresses to values
(`valueAt`), and each algorithm is described by its effect on that map.
-/

namespace Vpsim.Core.ParamContainer

open Vpsim.Lib

variable {V W : Type}

/-- Sorted by base address, with well-formed and pairwise disjoint ranges. -/
structure Sound (pc : ParamContainer V) : Prop where
  sorted : pc.Pairwise fun p q => p.1.baseAddress ≤ q.1.baseAddress
  wellFormed : ∀ p ∈ pc, p.1.WellFormed
  disjoint : pc.Pairwise fun p q => ∀ a ∈ p.1, a ∉ q.1

theorem Sound.apart {pc : ParamContainer V} (h : Sound pc) : Apart pc :=
  (apart_iff_pairwise pc).mpr h.disjoint

/-- Each range of a sound container ends before the later ones start. -/
theorem Sound.ordered {pc : ParamContainer V} (h : Sound pc) :
    pc.Pairwise fun p q => p.1.endAddress < q.1.baseAddress := by
  refine (h.sorted.and h.disjoint).imp_of_mem fun {p q} hp hq hpq => ?_
  have hqw := h.wellFormed q hq
  by_contra hlt
  exact hpq.2 q.1.baseAddress (AddrSpace.mem_def.mpr (by omega)) hqw.base_mem

/-- Well-formed ranges, each of which ends before the later ones start, are sound. -/
theorem Sound.of_ordered {pc : ParamContainer V} (hwf : ∀ p ∈ pc, p.1.WellFormed)
    (hord : pc.Pairwise fun p q => p.1.endAddress < q.1.baseAddress) : Sound pc where
  sorted := hord.imp_of_mem fun {p q} hp _ hpq => by
    have := (hwf p hp).base_le_end
    omega
  wellFormed := hwf
  disjoint := hord.imp fun {p q} hpq a hp hq => by
    rw [AddrSpace.mem_def] at hp hq
    omega

theorem sound_nil : Sound ([] : ParamContainer V) :=
  ⟨List.Pairwise.nil, fun _ h => absurd h (List.not_mem_nil), List.Pairwise.nil⟩

/-! ## Sorting -/

theorem sort_perm (pc : ParamContainer V) : (sort pc).Perm pc := List.perm_insertionSort _ _

theorem sort_ordered (pc : ParamContainer V) : (sort pc).Pairwise fun p q => ¬ q.1.lt p.1 := by
  have htotal : Std.Total fun p q : AddrSpace × V => ¬ q.1.lt p.1 :=
    ⟨fun p q => by unfold AddrSpace.lt; omega⟩
  have htrans : IsTrans (AddrSpace × V) fun p q => ¬ q.1.lt p.1 :=
    ⟨fun p q r => by unfold AddrSpace.lt; omega⟩
  exact List.pairwise_insertionSort _ pc

theorem sort_sorted (pc : ParamContainer V) :
    (sort pc).Pairwise fun p q => p.1.baseAddress ≤ q.1.baseAddress :=
  (sort_ordered pc).imp fun h => AddrSpace.base_le_of_not_lt h

/-- Sorting well-formed ranges that lie apart gives a sound container. -/
theorem sound_sort {pc : ParamContainer V} (hwf : ∀ p ∈ pc, p.1.WellFormed) (hap : Apart pc) :
    Sound (sort pc) where
  sorted := sort_sorted pc
  wellFormed := fun p hp => hwf p ((sort_perm pc).mem_iff.mp hp)
  disjoint := (apart_iff_pairwise _).mp (hap.perm (sort_perm pc).symm)

theorem valueAt_sort {pc : ParamContainer V} (hap : Apart pc) (a : ℕ) :
    valueAt (sort pc) a = valueAt pc a := hap.valueAt_perm (sort_perm pc).symm a

/-! ## Defragmentation -/

/-- What `defrag` needs of a container, disjoint or not: no entry that reaches the last
address stands before one that starts at zero, where the 64-bit increment wraps. -/
structure Tidy (pc : ParamContainer V) : Prop where
  sorted : pc.Pairwise fun p q => p.1.baseAddress ≤ q.1.baseAddress
  wellFormed : ∀ p ∈ pc, p.1.WellFormed
  noWrap : pc.Pairwise fun p q => p.1.endAddress + 1 = AddrSpace.addrCount → q.1.baseAddress ≠ 0

theorem Sound.tidy {pc : ParamContainer V} (h : Sound pc) : Tidy pc where
  sorted := h.sorted
  wellFormed := h.wellFormed
  noWrap := by
    have hpair := h.sorted.and h.disjoint
    refine hpair.imp_of_mem fun {p q} hp hq hpq hend hbase => ?_
    have hwp := (h.wellFormed p hp).base_le_end
    have hwq := (h.wellFormed q hq).base_le_end
    exact hpq.2 0 (AddrSpace.mem_def.mpr (by omega)) (AddrSpace.mem_def.mpr (by omega))

theorem Sound.of_tidy {pc : ParamContainer V} (h : Tidy pc) (hap : Apart pc) : Sound pc :=
  ⟨h.sorted, h.wellFormed, (apart_iff_pairwise pc).mp hap⟩

/-- What a pass of `defrag` does: two neighbours with the same value become one range. -/
theorem defragOnce_cases [DecidableEq V] {pc pc' : ParamContainer V} (h : defragOnce pc = some pc') :
    ∃ (l rest : ParamContainer V) (as1 as2 : AddrSpace) (v : V),
      pc = l ++ (as1, v) :: (as2, v) :: rest ∧
      (as1.endAddress + 1) % AddrSpace.addrCount = as2.baseAddress ∧
      pc' = l ++ (⟨as1.baseAddress, as2.endAddress⟩, v) :: rest := by
  fun_induction defragOnce pc generalizing pc' with
  | case1 as1 p1 as2 p2 rest hmerge =>
    obtain ⟨hadj, rfl⟩ := hmerge
    obtain rfl := Option.some.inj h
    exact ⟨[], rest, as1, as2, p1, rfl, hadj, rfl⟩
  | case2 as1 p1 as2 p2 rest hmerge ih =>
    obtain ⟨tail, htail, rfl⟩ := Option.map_eq_some_iff.mp h
    obtain ⟨l, rest', s, t, v, hpc, hadj, rfl⟩ := ih htail
    exact ⟨(as1, p1) :: l, rest', s, t, v, by rw [hpc]; rfl, hadj, rfl⟩
  | case3 => cases h

/-- In a tidy container the two merged ranges are adjacent as numbers. -/
theorem Tidy.adjacent {l rest : ParamContainer V} {as1 as2 : AddrSpace} {v : V}
    (h : Tidy (l ++ (as1, v) :: (as2, v) :: rest))
    (hadj : (as1.endAddress + 1) % AddrSpace.addrCount = as2.baseAddress) :
    as1.endAddress + 1 = as2.baseAddress := by
  have hend := (h.wellFormed (as1, v) (by simp)).end_lt
  have hwrap : as1.endAddress + 1 = AddrSpace.addrCount → as2.baseAddress ≠ 0 := by
    have := (List.pairwise_append.mp h.noWrap).2.1
    exact (List.pairwise_cons.mp this).1 (as2, v) (by simp)
  by_cases hlast : as1.endAddress + 1 = AddrSpace.addrCount
  · rw [hlast, Nat.mod_self] at hadj
    exact absurd hadj.symm (hwrap hlast)
  · rwa [Nat.mod_eq_of_lt (by dsimp only at hend; omega)] at hadj

/-- Merging two adjacent ranges keeps a container tidy and changes no value. -/
theorem Tidy.merge {l rest : ParamContainer V} {as1 as2 : AddrSpace} {v : V}
    (h : Tidy (l ++ (as1, v) :: (as2, v) :: rest))
    (hadj : as1.endAddress + 1 = as2.baseAddress) :
    Tidy (l ++ (⟨as1.baseAddress, as2.endAddress⟩, v) :: rest) ∧
      ∀ a, valuesAt (l ++ (⟨as1.baseAddress, as2.endAddress⟩, v) :: rest) a =
        valuesAt (l ++ (as1, v) :: (as2, v) :: rest) a := by
  have hwf1 := h.wellFormed (as1, v) (by simp)
  have hwf2 := h.wellFormed (as2, v) (by simp)
  have hle1 := hwf1.base_le_end
  have hle2 := hwf2.base_le_end
  have hend2 := hwf2.end_lt
  dsimp only at hle1 hle2 hend2
  obtain ⟨hs, hw, hn⟩ := h
  simp only [List.pairwise_append, List.pairwise_cons, List.mem_cons, forall_eq_or_imp] at hs hn
  refine ⟨⟨?_, ?_, ?_⟩, ?_⟩
  · simp only [List.pairwise_append, List.pairwise_cons, List.mem_cons, forall_eq_or_imp]
    exact ⟨hs.1, ⟨hs.2.1.1.2, hs.2.1.2.2⟩, fun p hp => ⟨(hs.2.2 p hp).1, (hs.2.2 p hp).2.2⟩⟩
  · intro p hp
    rcases List.mem_append.mp hp with hp | hp
    · exact hw p (by simp [hp])
    · rcases List.mem_cons.mp hp with rfl | hp
      · exact ⟨by dsimp only; omega, hend2⟩
      · exact hw p (by simp [hp])
  · simp only [List.pairwise_append, List.pairwise_cons, List.mem_cons, forall_eq_or_imp]
    exact ⟨hn.1, ⟨hn.2.1.2.1, hn.2.1.2.2⟩, fun p hp => ⟨(hn.2.2 p hp).1, (hn.2.2 p hp).2.2⟩⟩
  · intro a
    simp only [valuesAt_append, valuesAt_cons, AddrSpace.mem_def]
    congr 1
    by_cases h1 : as1.baseAddress ≤ a ∧ a ≤ as1.endAddress
    · rw [if_pos h1, if_pos (by omega), if_neg (by omega)]
      rfl
    · by_cases h2 : as2.baseAddress ≤ a ∧ a ≤ as2.endAddress
      · rw [if_neg h1, if_pos h2, if_pos (by omega)]
        rfl
      · rw [if_neg h1, if_neg h2, if_neg (by omega)]
        rfl

/-- `defrag` keeps a container tidy and changes no value. -/
theorem tidy_defrag [DecidableEq V] {pc : ParamContainer V} (h : Tidy pc) :
    Tidy (defrag pc) ∧ ∀ a, valuesAt (defrag pc) a = valuesAt pc a := by
  fun_induction defrag pc with
  | case1 pc hnone => exact ⟨h, fun _ => rfl⟩
  | case2 pc pc' hsome ih =>
    obtain ⟨l, rest, as1, as2, v, rfl, hadj, rfl⟩ := defragOnce_cases hsome
    obtain ⟨htidy, hvals⟩ := h.merge (h.adjacent hadj)
    obtain ⟨htidy', hvals'⟩ := ih htidy
    exact ⟨htidy', fun a => (hvals' a).trans (hvals a)⟩

/-- `defrag` keeps a container sound. -/
theorem sound_defrag [DecidableEq V] {pc : ParamContainer V} (h : Sound pc) : Sound (defrag pc) := by
  obtain ⟨htidy, hvals⟩ := tidy_defrag h.tidy
  exact Sound.of_tidy htidy fun a => by rw [hvals]; exact h.apart a

theorem valueAt_defrag [DecidableEq V] {pc : ParamContainer V} (h : Sound pc) (a : ℕ) :
    valueAt (defrag pc) a = valueAt pc a := by
  rw [valueAt, (tidy_defrag h.tidy).2, valueAt]

/-! ## Setting a parameter -/

/-- The map `f` after `v` is set on `as`: `pick` decides where a value was there before. -/
def overlay (pick : V → V → V) (f : ℕ → Option V) (as : AddrSpace) (v : V) (a : ℕ) : Option V :=
  if a ∈ as then some ((f a).elim v (pick · v)) else f a

/-- The search for a conflict splits the container at the entry that it finds, and the removal leaves the
two parts. -/
theorem erase_conflict {pc : ParamContainer V} {as : AddrSpace} {p : AddrSpace × V}
    (h : pc.find? (fun p => p.1.intersect as) = some p) :
    ∃ l rest, pc = l ++ p :: rest ∧ pc.eraseP (fun p => p.1.intersect as) = l ++ rest ∧
      p.1.intersect as = true := by
  obtain ⟨hp, l, rest, rfl, hl⟩ := List.find?_eq_some_iff_append.mp h
  refine ⟨l, rest, rfl, ?_, hp⟩
  rw [List.eraseP_append_right _ (fun q hq => by simpa using hl q hq), List.eraseP_cons, hp, cond_true]

theorem weight_append (l l' : ParamContainer V) : weight (l ++ l') = weight l + weight l' := by
  simp [weight]

theorem weight_cons (p : AddrSpace × V) (l : ParamContainer V) :
    weight (p :: l) = p.1.size + weight l := by
  simp [weight]

theorem weight_sort (pc : ParamContainer V) : weight (sort pc) = weight pc :=
  ((sort_perm pc).map _).sum_nat

/-- A container of well-formed ranges, with a bound on its weight. -/
structure Light (n : ℕ) (pc : ParamContainer V) : Prop where
  wellFormed : ∀ p ∈ pc, p.1.WellFormed
  weight_le : weight pc ≤ n

theorem Light.mono {m n : ℕ} {pc : ParamContainer V} (h : Light m pc) (hmn : m ≤ n) : Light n pc :=
  ⟨h.wellFormed, h.weight_le.trans hmn⟩

/-- A step that adds at most the size of its range adds at most the sizes of all ranges of a list. -/
theorem Light.foldl {set : ParamContainer V → AddrSpace → ParamContainer V} (us : List AddrSpace)
    (hset : ∀ n pc, Light n pc → ∀ u ∈ us, Light (n + u.size) (set pc u)) {n : ℕ}
    {pc : ParamContainer V} (h : Light n pc) :
    Light (n + (us.map AddrSpace.size).sum) (us.foldl set pc) := by
  induction us generalizing n pc with
  | nil => exact h
  | cons u us ih =>
    rw [List.map_cons, List.sum_cons, ← Nat.add_assoc, List.foldl_cons]
    exact ih (fun n pc h u hu => hset n pc h u (List.mem_cons_of_mem _ hu))
      (hset n pc h u List.mem_cons_self)

/-- A conflict: the removed entry pays for the parts of it that are set again, and the three groups of
pieces hold fewer addresses than the two ranges. -/
theorem Light.conflict {n : ℕ} {pc : ParamContainer V} (h : Light n pc) {as : AddrSpace} (has : as.WellFormed)
    {curAs : AddrSpace} {curParam : V}
    (hfind : pc.find? (fun p => p.1.intersect as) = some (curAs, curParam)) :
    curAs.intersect as = true ∧ as.intersect curAs = true ∧ curAs.WellFormed ∧
      Light (n - curAs.size) (pc.eraseP fun p => p.1.intersect as) ∧
      n - curAs.size + ((as.relativeComplement curAs).map AddrSpace.size).sum + (curAs.intersection as).size +
        ((curAs.relativeComplement as).map AddrSpace.size).sum < n + as.size := by
  obtain ⟨l, rest, rfl, herase, hmeet⟩ := erase_conflict hfind
  have hcur : curAs.WellFormed := h.wellFormed (curAs, curParam) (by simp)
  have hmeet' : as.intersect curAs = true := by
    rw [AddrSpace.intersect_iff] at hmeet ⊢
    exact hmeet.symm
  have hle := h.weight_le
  simp only [weight_append, weight_cons] at hle
  rw [herase]
  refine ⟨hmeet, hmeet', hcur, ⟨fun p hp => h.wellFormed p ?_, ?_⟩, ?_⟩
  · rcases List.mem_append.mp hp with hp | hp <;> simp [hp]
  · rw [weight_append]
    omega
  · have hnew := AddrSpace.size_relativeComplement_lt has hcur hmeet'
    have hold := AddrSpace.size_relativeComplement_lt hcur has hmeet
    have hpos := (has.intersection hcur hmeet').size_pos
    omega

/-- Setting a parameter adds at most the addresses of its range, however deep the recursion. -/
theorem Light.setParameterRec (pick : V → V → V) (fuel : ℕ) {n : ℕ} {pc : ParamContainer V}
    (h : Light n pc) {as : AddrSpace} (has : as.WellFormed) (param : V) :
    Light (n + as.size) (setParameterRec pick fuel pc as param) := by
  induction fuel generalizing n pc as param with
  | zero => exact h.mono (Nat.le_add_right _ _)
  | succ fuel ih =>
    unfold ParamContainer.setParameterRec
    split
    · refine ⟨fun p hp => ?_, ?_⟩
      · rcases List.mem_append.mp ((sort_perm _).mem_iff.mp hp) with hp | hp
        · exact h.wellFormed p hp
        · rw [List.mem_singleton.mp hp]
          exact has
      · rw [weight_sort, weight_append, weight_cons]
        have := h.weight_le
        simp only [weight, List.map_nil, List.sum_nil]
        simp only [weight] at this
        omega
    · next curAs curParam hfind =>
      obtain ⟨hmeet, hmeet', hcur, herased, hcount⟩ := h.conflict has hfind
      have hadd := herased.foldl (as.relativeComplement curAs)
        (fun m pc hpc u hu => ih hpc (has.relativeComplement hmeet' hu) param)
      have hpick := ih hadd (hcur.intersection has hmeet) (pick curParam param)
      have hold := hpick.foldl (curAs.relativeComplement as)
        (fun m pc hpc u hu => ih hpc (hcur.relativeComplement hmeet hu) curParam)
      exact hold.mono (by omega)

theorem Sound.sublist {pc pc' : ParamContainer V} (h : Sound pc) (hsub : pc'.Sublist pc) : Sound pc' :=
  ⟨h.sorted.sublist hsub, fun p hp => h.wellFormed p (hsub.subset hp), h.disjoint.sublist hsub⟩

/-- Removing one entry of a sound container undefines its addresses and no others. -/
theorem Sound.erase {l rest : ParamContainer V} {as : AddrSpace} {v : V}
    (h : Sound (l ++ (as, v) :: rest)) :
    Sound (l ++ rest) ∧ (∀ a ∈ as, valueAt (l ++ (as, v) :: rest) a = some v) ∧
      ∀ a, valueAt (l ++ rest) a = if a ∈ as then none else valueAt (l ++ (as, v) :: rest) a := by
  have hvals : ∀ a, valuesAt (l ++ (as, v) :: rest) a =
      valuesAt l a ++ ((if a ∈ as then [v] else []) ++ valuesAt rest a) := by
    intro a
    rw [valuesAt_append, valuesAt_cons]
  refine ⟨h.sublist ((List.Sublist.refl l).append (List.sublist_cons_self _ _)), fun a ha => ?_,
    fun a => ?_⟩
  · exact h.apart.valueAt_eq_some.mpr ⟨as, by simp, ha⟩
  · by_cases ha : a ∈ as
    · have hlen := h.apart a
      rw [hvals, if_pos ha] at hlen
      simp only [List.length_append, List.length_cons, List.length_nil] at hlen
      rw [if_pos ha, valueAt, valuesAt_append, List.head?_eq_none_iff, List.append_eq_nil_iff]
      exact ⟨List.eq_nil_of_length_eq_zero (by omega), List.eq_nil_of_length_eq_zero (by omega)⟩
    · rw [if_neg ha, valueAt, valueAt, hvals, if_neg ha, valuesAt_append]
      rfl

/-- Setting the ranges of a list one after the other, none of which has an address in common
with another: each of their addresses is overlaid once. -/
theorem foldl_overlay {pick : V → V → V} {set : ParamContainer V → AddrSpace → ParamContainer V}
    {v : V} {bound : ℕ} (us : List AddrSpace)
    (hlight : ∀ n pc, Light n pc → ∀ u ∈ us, Light (n + u.size) (set pc u))
    (hset : ∀ pc, Sound pc → ∀ u ∈ us, weight pc + u.size < bound →
      Sound (set pc u) ∧ ∀ a, valueAt (set pc u) a = overlay pick (valueAt pc) u v a)
    (hap : us.Pairwise fun u w => ∀ a ∈ u, a ∉ w) {n : ℕ} {pc : ParamContainer V} (h : Sound pc)
    (hn : Light n pc) (hbound : n + (us.map AddrSpace.size).sum < bound) :
    Sound (us.foldl set pc) ∧ ∀ a, valueAt (us.foldl set pc) a =
      if ∃ u ∈ us, a ∈ u then some ((valueAt pc a).elim v (pick · v)) else valueAt pc a := by
  induction us generalizing n pc with
  | nil => exact ⟨h, fun a => by simp⟩
  | cons u us ih =>
    rw [List.map_cons, List.sum_cons] at hbound
    rw [List.pairwise_cons] at hap
    have hle := hn.weight_le
    obtain ⟨hsound, hval⟩ := hset pc h u List.mem_cons_self (by omega)
    obtain ⟨hsound', hval'⟩ := ih (fun n pc h w hw => hlight n pc h w (List.mem_cons_of_mem _ hw))
      (fun pc h w hw => hset pc h w (List.mem_cons_of_mem _ hw)) hap.2 hsound
      (hlight n pc hn u List.mem_cons_self) (by omega)
    refine ⟨hsound', fun a => ?_⟩
    rw [List.foldl_cons, hval', hval, overlay]
    by_cases ha : a ∈ u
    · have hrest : ¬ ∃ w ∈ us, a ∈ w := fun ⟨w, hw, haw⟩ => hap.1 w hw a ha haw
      rw [if_neg hrest, if_pos ha, if_pos ⟨u, List.mem_cons_self, ha⟩]
    · simp only [ha, if_false, List.mem_cons, exists_eq_or_imp, false_or]

/-- `setParameterHelper` on a sound container: the container stays sound, and its map is
overlaid with the new value. -/
theorem setParameterRec_sound {pick : V → V → V} {fuel : ℕ} {pc : ParamContainer V} (h : Sound pc)
    {as : AddrSpace} (has : as.WellFormed) (param : V) (hfuel : weight pc + as.size < fuel) :
    Sound (setParameterRec pick fuel pc as param) ∧
      ∀ a, valueAt (setParameterRec pick fuel pc as param) a = overlay pick (valueAt pc) as param a := by
  induction fuel generalizing pc as param with
  | zero => omega
  | succ fuel ih =>
    unfold setParameterRec
    split
    · next hfind =>
      have hnone : ∀ a ∈ as, valueAt pc a = none := by
        intro a ha
        rw [valueAt_eq_none]
        intro p hp hpa
        exact List.find?_eq_none.mp hfind p hp (AddrSpace.intersect_of_mem hpa ha)
      have hvals : ∀ a, valuesAt (pc ++ [(as, param)]) a = (overlay pick (valueAt pc) as param a).toList := by
        intro a
        rw [valuesAt_append, h.apart.valuesAt_eq, overlay]
        by_cases ha : a ∈ as
        · rw [hnone a ha, if_pos ha, valuesAt_cons_of_mem _ ha]
          rfl
        · rw [if_neg ha, valuesAt_cons_of_notMem _ ha]
          exact List.append_nil _
      have hap : Apart (pc ++ [(as, param)]) := fun a => by
        rw [hvals]
        cases overlay pick (valueAt pc) as param a <;> simp
      refine ⟨sound_sort (fun p hp => ?_) hap, fun a => ?_⟩
      · rcases List.mem_append.mp hp with hp | hp
        · exact h.wellFormed p hp
        · rw [List.mem_singleton.mp hp]
          exact has
      · rw [valueAt_sort hap, valueAt_of_valuesAt (hvals a)]
    · next curAs curParam hfind =>
      have hpc : Light (weight pc) pc := ⟨h.wellFormed, Nat.le_refl _⟩
      obtain ⟨hmeet, hmeet', hcur, hl0, hcount⟩ := hpc.conflict has hfind
      obtain ⟨l, rest, rfl, herase, -⟩ := erase_conflict hfind
      rw [herase] at hl0 ⊢
      obtain ⟨hs0, hcurVal, hv0⟩ := h.erase
      have hlight : ∀ us : List AddrSpace, (∀ u ∈ us, u.WellFormed) → ∀ (v : V) n pc, Light n pc →
          ∀ u ∈ us, Light (n + u.size) (setParameterRec pick fuel pc u v) :=
        fun us hus v n pc hpc u hu => hpc.setParameterRec pick fuel (hus u hu) v
      -- the part of `as` outside the old entry
      obtain ⟨hs1, hv1⟩ := foldl_overlay (as.relativeComplement curAs)
        (hlight _ (fun u hu => has.relativeComplement hmeet' hu) param)
        (fun pc hpc u hu hlt => ih hpc (has.relativeComplement hmeet' hu) param hlt)
        (as.relativeComplement_pairwise hcur) hs0 hl0 (by omega)
      have hl1 := hl0.foldl (as.relativeComplement curAs)
        (hlight _ (fun u hu => has.relativeComplement hmeet' hu) param)
      -- the part that both have
      have hw1 := hl1.weight_le
      obtain ⟨hs2, hv2⟩ := ih hs1 (hcur.intersection has hmeet) (pick curParam param) (by omega)
      have hl2 := hl1.setParameterRec pick fuel (hcur.intersection has hmeet) (pick curParam param)
      -- the rest of the old entry
      obtain ⟨hs3, hv3⟩ := foldl_overlay (curAs.relativeComplement as)
        (hlight _ (fun u hu => hcur.relativeComplement hmeet hu) curParam)
        (fun pc hpc u hu hlt => ih hpc (hcur.relativeComplement hmeet hu) curParam hlt)
        (curAs.relativeComplement_pairwise has) hs2 hl2 (by omega)
      refine ⟨hs3, fun a => ?_⟩
      simp only [hv3, hv2, hv1, hv0, overlay, AddrSpace.exists_mem_relativeComplement hmeet,
        AddrSpace.exists_mem_relativeComplement hmeet', AddrSpace.mem_intersection hmeet]
      by_cases hc : a ∈ curAs
      · by_cases ha : a ∈ as <;> simp [hc, ha, hcurVal a hc]
      · by_cases ha : a ∈ as <;> simp [hc, ha]

/-- `setParameterHelper` keeps a container sound and overlays its map with the new value. -/
theorem sound_setParameterHelper (pick : V → V → V) {pc : ParamContainer V} (h : Sound pc)
    {as : AddrSpace} (has : as.WellFormed) (param : V) :
    Sound (setParameterHelper pick pc as param) ∧
      ∀ a, valueAt (setParameterHelper pick pc as param) a = overlay pick (valueAt pc) as param a :=
  setParameterRec_sound h has param (Nat.lt_succ_self _)

/-- A value that always wins holds on its range, and elsewhere nothing changes. -/
theorem valueAt_setNew {pc : ParamContainer V} (h : Sound pc) {as : AddrSpace} (has : as.WellFormed) (v : V)
    (a : ℕ) :
    valueAt (setParameterHelper (fun _ new => new) pc as v) a = if a ∈ as then some v else valueAt pc a := by
  refine ((sound_setParameterHelper (fun _ new => new) h has v).2 a).trans ?_
  rw [overlay]
  split_ifs with ha
  · cases valueAt pc a <;> rfl
  · rfl

end Vpsim.Core.ParamContainer
