import Vpsim.Core.ContainerSpec

/-!
# Merging, scaling, trimming and comparing containers

The map denoted by the result of each operation that `ParameterSet` applies to a whole
container, and the normal form that `defrag` computes: two defragmented containers with the
same map are equal.
-/

namespace Vpsim.Core.ParamContainer

open Vpsim.Lib

variable {V W : Type}

/-! ## Merging -/

/-- The value at an address where a container says `old` and an incoming one says `new`. -/
def combine (pick : V → V → V) : Option V → Option V → Option V
  | old, none => old
  | none, some v => some v
  | some o, some v => some (pick o v)

@[simp] theorem combine_none_right (pick : V → V → V) (o : Option V) : combine pick o none = o := by
  cases o <;> rfl

@[simp] theorem combine_none_left (pick : V → V → V) (o : Option V) : combine pick none o = o := by
  cases o <;> rfl

@[simp] theorem combine_some (pick : V → V → V) (o v : V) :
    combine pick (some o) (some v) = some (pick o v) := rfl

theorem overlay_eq_combine (pick : V → V → V) (f : ℕ → Option V) (as : AddrSpace) (v : V) (a : ℕ) :
    overlay pick f as v a = combine pick (f a) (if a ∈ as then some v else none) := by
  unfold overlay
  split_ifs <;> cases f a <;> rfl

/-- A value combined with all the values that an incoming list has at an address, in order. -/
def combineAll (pick : V → V → V) (old : Option V) (news : List V) : Option V :=
  news.foldl (fun o v => combine pick o (some v)) old

theorem combineAll_toList (pick : V → V → V) (old new : Option V) :
    combineAll pick old new.toList = combine pick old new := by
  cases new <;> simp [combineAll]

/-- Setting every entry of a list of well-formed ranges, disjoint or not, in a sound container. -/
theorem sound_foldl_set (pick : V → V → V) {source target : ParamContainer V} (ht : Sound target)
    (hwf : ∀ p ∈ source, p.1.WellFormed) :
    Sound (source.foldl (fun pc p => setParameterHelper pick pc p.1 p.2) target) ∧
      ∀ a, valueAt (source.foldl (fun pc p => setParameterHelper pick pc p.1 p.2) target) a =
        combineAll pick (valueAt target a) (valuesAt source a) := by
  induction source generalizing target with
  | nil => exact ⟨ht, fun a => rfl⟩
  | cons p source ih =>
    obtain ⟨hsound, hval⟩ := sound_setParameterHelper pick ht (hwf p List.mem_cons_self) p.2
    obtain ⟨hsound', hval'⟩ := ih hsound fun q hq => hwf q (List.mem_cons_of_mem _ hq)
    refine ⟨hsound', fun a => ?_⟩
    rw [List.foldl_cons, hval', hval, overlay_eq_combine, valuesAt_cons]
    by_cases ha : a ∈ p.1
    · simp [ha, combineAll]
    · simp [ha]

/-- The merge of well-formed ranges into a sound container is sound. -/
theorem sound_absorb [DecidableEq V] (pick : V → V → V) {source target : ParamContainer V}
    (ht : Sound target) (hwf : ∀ p ∈ source, p.1.WellFormed) :
    Sound (absorb pick source target) ∧
      ∀ a, valueAt (absorb pick source target) a =
        combineAll pick (valueAt target a) (valuesAt source a) := by
  obtain ⟨hsound, hval⟩ := sound_foldl_set pick ht hwf
  exact ⟨sound_defrag hsound, fun a => (valueAt_defrag hsound a).trans (hval a)⟩

/-- The merge of two sound containers combines their maps. -/
theorem valueAt_absorb [DecidableEq V] (pick : V → V → V) {source target : ParamContainer V}
    (ht : Sound target) (hs : Sound source) (a : ℕ) :
    valueAt (absorb pick source target) a = combine pick (valueAt target a) (valueAt source a) := by
  rw [(sound_absorb pick ht hs.wellFormed).2, hs.apart.valuesAt_eq, combineAll_toList]

/-! ## Scaling by traversal rates -/

/-- The delay at an address with the traversal rate there. -/
def scaled (scale : V → W → V) (rate : Option W) (delay : V) : V := rate.elim delay (scale delay)

/-- Pieces with disjoint ranges have together one value at an address that one of them holds. -/
theorem flatMap_one {us : List AddrSpace} (hap : us.Pairwise fun u w => ∀ a ∈ u, a ∉ w) {a : ℕ}
    {f : AddrSpace → List V} {P : V → Prop} {v₀ : V} (h₀ : P v₀)
    (hf : ∀ u ∈ us, ∃ v, f u = (if a ∈ u then [v] else []) ∧ P v) :
    ∃ v, us.flatMap f = (if ∃ u ∈ us, a ∈ u then [v] else []) ∧ P v := by
  induction us with
  | nil => exact ⟨v₀, by simp, h₀⟩
  | cons u us ih =>
    rw [List.pairwise_cons] at hap
    obtain ⟨v, hv, hPv⟩ := hf u List.mem_cons_self
    obtain ⟨w, hw, hPw⟩ := ih hap.2 fun t ht => hf t (List.mem_cons_of_mem _ ht)
    rw [List.flatMap_cons, hv, hw]
    by_cases ha : a ∈ u
    · have hrest : ¬ ∃ w ∈ us, a ∈ w := fun ⟨w, hw, haw⟩ => hap.1 w hw a ha haw
      refine ⟨v, ?_, hPv⟩
      rw [if_pos ha, if_neg hrest, if_pos ⟨u, List.mem_cons_self, ha⟩]
      rfl
    · exact ⟨w, by simp [ha], hPw⟩

/-- A part of `as` outside a traversal rate that meets it meets fewer rates. -/
theorem countP_intersect_lt {trRates : ParamContainer W} {as trAs oas : AddrSpace} {tr : W}
    (hmem : (trAs, tr) ∈ trRates) (hmeet : as.intersect trAs = true)
    (hoas : oas ∈ as.relativeComplement trAs) :
    trRates.countP (fun p => oas.intersect p.1) < trRates.countP (fun p => as.intersect p.1) := by
  have hsub : ∀ u : AddrSpace, oas.intersect u = true → as.intersect u = true := by
    intro u
    simp only [AddrSpace.intersect_iff] at hmeet ⊢
    rcases AddrSpace.mem_relativeComplement.mp hoas with ⟨hlt, rfl⟩ | ⟨hlt, rfl⟩ <;> dsimp only <;> omega
  have hnot : oas.intersect trAs = false := by
    rw [Bool.eq_false_iff, ne_eq, AddrSpace.intersect_iff]
    rcases AddrSpace.mem_relativeComplement.mp hoas with ⟨hlt, rfl⟩ | ⟨hlt, rfl⟩ <;> dsimp only <;> omega
  obtain ⟨l, rest, rfl⟩ := List.append_of_mem hmem
  simp only [List.countP_append, List.countP_cons, hmeet, hnot, if_true, Bool.false_eq_true, if_false]
  have h1 := List.countP_mono_left (l := l) fun p _ => hsub p.1
  have h2 := List.countP_mono_left (l := rest) fun p _ => hsub p.1
  omega

/-- The pieces made for one delay entry cover its range once; where the rates are disjoint, each
has the rate that holds there. -/
theorem newDelaysRec_spec (scale : V → W → V) {trRates : ParamContainer W}
    (hr : ∀ p ∈ trRates, p.1.WellFormed) {fuel : ℕ} {as : AddrSpace} (has : as.WellFormed) (delay : V)
    (hfuel : trRates.countP (fun p => as.intersect p.1) < fuel) :
    (∀ p ∈ newDelaysRec scale trRates fuel as delay, p.1.WellFormed) ∧
      ∀ a, ∃ v, valuesAt (newDelaysRec scale trRates fuel as delay) a = (if a ∈ as then [v] else []) ∧
        (Apart trRates → v = scaled scale (valueAt trRates a) delay) := by
  induction fuel generalizing as with
  | zero => omega
  | succ fuel ih =>
    unfold newDelaysRec
    split
    · next hfind =>
      refine ⟨fun p hp => by rw [List.mem_singleton.mp hp]; exact has, fun a => ?_⟩
      by_cases ha : a ∈ as
      · have hnone : valueAt trRates a = none := valueAt_eq_none.mpr fun p hp hpa =>
          List.find?_eq_none.mp hfind p hp (AddrSpace.intersect_of_mem ha hpa)
        exact ⟨delay, by simp [valuesAt_cons], fun _ => by rw [hnone]; rfl⟩
      · exact ⟨_, by simp [ha], fun _ => rfl⟩
    · next trAs tr hfind =>
      have hmem := List.mem_of_find?_eq_some hfind
      have hmeet : as.intersect trAs = true := by simpa using List.find?_some hfind
      have htr := hr _ hmem
      have hpiece : ∀ oas ∈ as.relativeComplement trAs, _ := fun oas hoas =>
        ih (has.relativeComplement hmeet hoas)
          (by have := countP_intersect_lt hmem hmeet hoas; omega)
      refine ⟨fun p hp => ?_, fun a => ?_⟩
      · rcases List.mem_cons.mp hp with rfl | hp
        · exact has.intersection htr hmeet
        · obtain ⟨oas, hoas, hp⟩ := List.mem_flatMap.mp hp
          exact (hpiece oas hoas).1 p hp
      · obtain ⟨v, hv, hPv⟩ := flatMap_one (as.relativeComplement_pairwise htr)
          (P := fun v => Apart trRates → v = scaled scale (valueAt trRates a) delay) (fun _ => rfl)
          fun oas hoas => (hpiece oas hoas).2 a
        simp only [AddrSpace.exists_mem_relativeComplement hmeet] at hv
        rw [valuesAt_cons, valuesAt_flatMap, hv]
        simp only [AddrSpace.mem_intersection hmeet]
        by_cases ht : a ∈ trAs
        · refine ⟨scale delay tr, by by_cases ha : a ∈ as <;> simp [ht, ha], fun hap => ?_⟩
          rw [hap.valueAt_eq_some.mpr ⟨trAs, hmem, ht⟩]
          rfl
        · exact ⟨v, by by_cases ha : a ∈ as <;> simp [ht, ha], hPv⟩

/-- The pieces made for all delay entries, before sorting, give each address one value for each delay
there. -/
theorem valuesAt_newDelays_raw (scale : V → W → V) {trRates : ParamContainer W}
    (hr : ∀ p ∈ trRates, p.1.WellFormed) {delays : ParamContainer V}
    (hd : ∀ d ∈ delays, d.1.WellFormed) (a : ℕ) :
    (valuesAt (delays.flatMap fun d => newDelaysRec scale trRates (trRates.length + 1) d.1 d.2) a).length =
        (valuesAt delays a).length ∧
      (Apart trRates →
        valuesAt (delays.flatMap fun d => newDelaysRec scale trRates (trRates.length + 1) d.1 d.2) a =
          (valuesAt delays a).map (scaled scale (valueAt trRates a))) := by
  induction delays with
  | nil => simp
  | cons d delays ih =>
    obtain ⟨hlen, hmap⟩ := ih fun e he => hd e (List.mem_cons_of_mem _ he)
    obtain ⟨v, hv, hscaled⟩ := (newDelaysRec_spec scale hr (hd d List.mem_cons_self) d.2
      (Nat.lt_succ_of_le List.countP_le_length)).2 a
    rw [List.flatMap_cons, valuesAt_append, valuesAt_cons, hv]
    constructor
    · by_cases ha : a ∈ d.1 <;> simp [ha, hlen]
    · intro hap
      rw [hmap hap, hscaled hap]
      by_cases ha : a ∈ d.1 <;> simp [ha]

/-- The scaled delays are sound and defined where the delays are; where the rates are disjoint,
each delay is scaled by the rate that holds there. -/
theorem sound_newDelays [DecidableEq V] (scale : V → W → V) {trRates : ParamContainer W}
    (hr : ∀ p ∈ trRates, p.1.WellFormed) {delays : ParamContainer V} (hd : Sound delays) :
    Sound (newDelays scale trRates delays) ∧
      (∀ a, valueAt (newDelays scale trRates delays) a = none ↔ valueAt delays a = none) ∧
      (Apart trRates → ∀ a, valueAt (newDelays scale trRates delays) a =
        (valueAt delays a).map (scaled scale (valueAt trRates a))) := by
  have hvals := fun a => valuesAt_newDelays_raw scale hr hd.wellFormed a
  have hap : Apart (delays.flatMap fun d => newDelaysRec scale trRates (trRates.length + 1) d.1 d.2) :=
    fun a => by rw [(hvals a).1]; exact hd.apart a
  have hsound := sound_sort (fun p hp => by
    obtain ⟨d, hd', hp⟩ := List.mem_flatMap.mp hp
    exact (newDelaysRec_spec scale hr (hd.wellFormed d hd') d.2
      (Nat.lt_succ_of_le List.countP_le_length)).1 p hp) hap
  have hval : ∀ a, valueAt (newDelays scale trRates delays) a =
      valueAt (delays.flatMap fun d => newDelaysRec scale trRates (trRates.length + 1) d.1 d.2) a :=
    fun a => by rw [newDelays, valueAt_defrag hsound, valueAt_sort hap]
  refine ⟨sound_defrag hsound, fun a => ?_, fun hrates a => ?_⟩
  · rw [hval, valueAt, valueAt, List.head?_eq_none_iff, List.head?_eq_none_iff,
      ← List.length_eq_zero_iff, ← List.length_eq_zero_iff, (hvals a).1]
  · rw [hval]
    apply valueAt_of_valuesAt
    rw [(hvals a).2 hrates, hd.apart.valuesAt_eq, Option.toList_map]

/-! ## Trimming -/

/-- The pieces of one entry: one for each member of the restriction that holds the address.
The loop may stop early because the restriction is ordered by base address. -/
theorem valuesAt_trimEntry (p : AddrSpace × V) {restriction : List AddrSpace}
    (hord : restriction.Pairwise fun s t => s.baseAddress ≤ t.baseAddress) (a : ℕ) :
    valuesAt (trimEntry p restriction) a =
      if a ∈ p.1 then List.replicate (restriction.countP fun s => a ∈ s) p.2 else [] := by
  induction restriction with
  | nil => simp [trimEntry]
  | cons s restriction ih =>
    rw [List.pairwise_cons] at hord
    have ih' := ih hord.2
    rw [trimEntry]
    by_cases hmeet : p.1.intersect s = true
    · rw [if_pos hmeet, valuesAt_cons, ih', List.countP_cons]
      by_cases hin : a ∈ p.1 <;> by_cases hs : a ∈ s <;>
        simp [AddrSpace.mem_intersection hmeet, hin, hs, List.replicate_succ]
    · have hs : a ∈ p.1 → a ∉ s := fun hin hs => hmeet (AddrSpace.intersect_of_mem hin hs)
      rw [if_neg hmeet]
      by_cases hafter : s.baseAddress > p.1.endAddress
      · have hnone : a ∈ p.1 → ∀ t ∈ restriction, a ∉ t := by
          intro hin t ht
          have hbase := hord.1 t ht
          rw [AddrSpace.mem_def] at hin ⊢
          omega
        rw [if_pos hafter, List.countP_cons]
        by_cases hin : a ∈ p.1
        · simpa [hin, hs hin] using hnone hin
        · simp [hin]
      · rw [if_neg hafter, ih', List.countP_cons]
        by_cases hin : a ∈ p.1
        · simp [hin, hs hin]
        · simp [hin]

theorem trimEntry_wellFormed {p : AddrSpace × V} (hp : p.1.WellFormed) {restriction : List AddrSpace}
    (hwf : ∀ s ∈ restriction, s.WellFormed) :
    ∀ q ∈ trimEntry p restriction, q.1.WellFormed := by
  induction restriction with
  | nil => intro q hq; cases hq
  | cons s restriction ih =>
    have ih' := ih fun t ht => hwf t (List.mem_cons_of_mem _ ht)
    unfold trimEntry
    split_ifs with hmeet hafter
    · intro q hq
      rcases List.mem_cons.mp hq with rfl | hq
      · exact hp.intersection (hwf s List.mem_cons_self) hmeet
      · exact ih' q hq
    · intro q hq; cases hq
    · exact ih'

/-- The values at an address before defragmentation: each value as many times as the
restriction holds the address. -/
theorem valuesAt_trim_raw {pc : ParamContainer V} {restriction : List AddrSpace}
    (hord : restriction.Pairwise fun s t => s.baseAddress ≤ t.baseAddress) (a : ℕ) :
    valuesAt (pc.flatMap fun p => trimEntry p restriction) a =
      (valuesAt pc a).flatMap fun v => List.replicate (restriction.countP fun s => a ∈ s) v := by
  rw [valuesAt_flatMap, List.flatMap_congr fun p _ => valuesAt_trimEntry p hord a]
  induction pc with
  | nil => rfl
  | cons p pc ih =>
    rw [List.flatMap_cons, ih, valuesAt_cons]
    by_cases ha : a ∈ p.1 <;> simp [ha]

theorem mem_trimEntry {p q : AddrSpace × V} {restriction : List AddrSpace}
    (hq : q ∈ trimEntry p restriction) :
    ∃ s ∈ restriction, p.1.intersect s = true ∧ q.1 = p.1.intersection s := by
  induction restriction with
  | nil => cases hq
  | cons s restriction ih =>
    rw [trimEntry] at hq
    split_ifs at hq with hmeet hafter
    · rcases List.mem_cons.mp hq with rfl | hq
      · exact ⟨s, List.mem_cons_self, hmeet, rfl⟩
      · obtain ⟨t, ht, h⟩ := ih hq
        exact ⟨t, List.mem_cons_of_mem _ ht, h⟩
    · cases hq
    · obtain ⟨t, ht, h⟩ := ih hq
      exact ⟨t, List.mem_cons_of_mem _ ht, h⟩

/-- A piece that is the whole address space comes from an entry and a member that both are. -/
theorem eq_maxRange_of_intersection {s t : AddrSpace} (hs : s.WellFormed) (ht : t.WellFormed)
    (hmeet : s.intersect t = true) (h : s.intersection t = AddrSpace.maxRange) :
    s = AddrSpace.maxRange ∧ t = AddrSpace.maxRange := by
  have hs' := hs.end_lt
  have ht' := ht.end_lt
  simp only [AddrSpace.intersection, hmeet, if_true, AddrSpace.maxRange, AddrSpace.mk.injEq] at h
  obtain ⟨sb, se⟩ := s
  obtain ⟨tb, te⟩ := t
  simp only [AddrSpace.maxRange, AddrSpace.mk.injEq, AddrSpace.addrCount] at *
  omega

/-- Two pieces are never both the whole address space. -/
theorem trim_raw_pairwise {pc : ParamContainer V} (h : Sound pc) {restriction : List AddrSpace}
    (hord : restriction.Pairwise AddrSpace.lt) (hwf : ∀ s ∈ restriction, s.WellFormed) :
    (pc.flatMap fun p => trimEntry p restriction).Pairwise fun p q =>
      ¬ (p.1 = AddrSpace.maxRange ∧ q.1 = AddrSpace.maxRange) := by
  rw [List.pairwise_flatMap]
  constructor
  · intro p hp
    have hpw := h.wellFormed p hp
    induction restriction with
    | nil => exact List.Pairwise.nil
    | cons s restriction ih =>
      rw [List.pairwise_cons] at hord
      have hwf' : ∀ t ∈ restriction, t.WellFormed := fun t ht => hwf t (List.mem_cons_of_mem _ ht)
      rw [trimEntry]
      split_ifs with hmeet hafter
      · refine List.pairwise_cons.mpr ⟨fun q hq hboth => ?_, ih hord.2 hwf'⟩
        obtain ⟨t, ht, hmeet', hqt⟩ := mem_trimEntry hq
        obtain ⟨-, hs⟩ := eq_maxRange_of_intersection hpw (hwf s List.mem_cons_self) hmeet hboth.1
        obtain ⟨-, ht'⟩ := eq_maxRange_of_intersection hpw (hwf' t ht) hmeet' (hqt ▸ hboth.2)
        exact AddrSpace.lt_irrefl s (by simpa [hs, ht'] using hord.1 t ht)
      · exact List.Pairwise.nil
      · exact ih hord.2 hwf'
  · refine h.disjoint.imp_of_mem fun {p q} hp hq hpq x hx y hy hboth => ?_
    obtain ⟨s, hs, hmeet, hxs⟩ := mem_trimEntry hx
    obtain ⟨t, ht, hmeet', hyt⟩ := mem_trimEntry hy
    obtain ⟨hpmax, -⟩ := eq_maxRange_of_intersection (h.wellFormed p hp) (hwf s hs) hmeet (hxs ▸ hboth.1)
    obtain ⟨hqmax, -⟩ := eq_maxRange_of_intersection (h.wellFormed q hq) (hwf t ht) hmeet' (hyt ▸ hboth.2)
    exact hpq 0 (by rw [hpmax]; exact AddrSpace.maxRange_wellFormed.base_mem)
      (by rw [hqmax]; exact AddrSpace.maxRange_wellFormed.base_mem)

/-- The pieces that `trim` sorts are fit for `defrag`, whether or not they overlap. -/
theorem tidy_trim_raw {pc : ParamContainer V} (h : Sound pc) {restriction : List AddrSpace}
    (hord : restriction.Pairwise AddrSpace.lt) (hwf : ∀ s ∈ restriction, s.WellFormed) :
    Tidy (sort (pc.flatMap fun p => trimEntry p restriction)) := by
  have hperm := sort_perm (pc.flatMap fun p => trimEntry p restriction)
  have hraw : ∀ q ∈ pc.flatMap (fun p => trimEntry p restriction), q.1.WellFormed := by
    intro q hq
    obtain ⟨p, hp, hq⟩ := List.mem_flatMap.mp hq
    exact trimEntry_wellFormed (h.wellFormed p hp) hwf q hq
  have hwf' : ∀ q ∈ sort (pc.flatMap fun p => trimEntry p restriction), q.1.WellFormed :=
    fun q hq => hraw q (hperm.mem_iff.mp hq)
  refine ⟨sort_sorted _, hwf', ?_⟩
  have hmax := (hperm.pairwise_iff (fun {p q} hpq hqp => hpq hqp.symm)).mpr
    (trim_raw_pairwise h hord hwf)
  refine ((sort_ordered _).and hmax).imp_of_mem fun {p q} hp hq hpq hend hbase => ?_
  have hqw := (hwf' q hq).end_lt
  obtain ⟨hnlt, hnot⟩ := hpq
  unfold AddrSpace.lt at hnlt
  obtain ⟨⟨pb, pe⟩, pv⟩ := p
  obtain ⟨⟨qb, qe⟩, qv⟩ := q
  simp only [AddrSpace.maxRange, AddrSpace.mk.injEq, AddrSpace.addrCount] at *
  omega

theorem trim_nil [DecidableEq V] (restriction : List AddrSpace) :
    trim restriction ([] : ParamContainer V) = [] := by
  rw [trim, List.flatMap_nil, defrag]
  rfl

/-- After `trim` an address has its value once for each range of the restriction that it lies in. -/
theorem valuesAt_trim [DecidableEq V] {pc : ParamContainer V} (h : Sound pc)
    {restriction : List AddrSpace} (hord : restriction.Pairwise AddrSpace.lt)
    (hwf : ∀ s ∈ restriction, s.WellFormed) (a : ℕ) :
    (valuesAt (trim restriction pc) a).Perm
      ((valueAt pc a).toList.flatMap fun v => List.replicate (restriction.countP fun s => a ∈ s) v) := by
  have hbase : restriction.Pairwise fun s t => s.baseAddress ≤ t.baseAddress :=
    hord.imp fun hst => by unfold AddrSpace.lt at hst; omega
  rw [trim, (tidy_defrag (tidy_trim_raw h hord hwf)).2, ← h.apart.valuesAt_eq, ← valuesAt_trim_raw hbase]
  exact valuesAt_perm (sort_perm _) a

/-- `trim` keeps exactly the addresses of the restriction, with their values. -/
theorem valueAt_trim [DecidableEq V] {pc : ParamContainer V} (h : Sound pc)
    {restriction : List AddrSpace} (hord : restriction.Pairwise AddrSpace.lt)
    (hwf : ∀ s ∈ restriction, s.WellFormed) (a : ℕ) :
    valueAt (trim restriction pc) a = if ∃ s ∈ restriction, a ∈ s then valueAt pc a else none := by
  have hperm := valuesAt_trim h hord hwf a
  by_cases hin : ∃ s ∈ restriction, a ∈ s
  · have hpos : 0 < restriction.countP fun s => a ∈ s := by
      simpa [List.countP_pos_iff] using hin
    obtain ⟨n, hn⟩ : ∃ n, restriction.countP (fun s => a ∈ s) = n + 1 := ⟨_, (Nat.succ_pred_eq_of_pos hpos).symm⟩
    rw [hn] at hperm
    rw [if_pos hin]
    cases hv : valueAt pc a with
    | none => rw [hv] at hperm; rw [valueAt, hperm.eq_nil]; rfl
    | some v =>
      rw [hv] at hperm
      simp only [Option.toList_some, List.flatMap_cons, List.flatMap_nil, List.append_nil] at hperm
      rw [valueAt, List.perm_replicate.mp hperm, List.replicate_succ]
      rfl
  · have hzero : restriction.countP (fun s => a ∈ s) = 0 :=
      List.countP_eq_zero.mpr fun s hs => by simpa using fun ha => hin ⟨s, hs, ha⟩
    rw [hzero] at hperm
    rw [if_neg hin, valueAt, List.Perm.eq_nil (hperm.trans (by simp))]
    rfl

/-- At most one member holds the address exactly when no two members do. -/
theorem countP_mem_le_one {restriction : List AddrSpace} (hord : restriction.Pairwise AddrSpace.lt)
    (a : ℕ) : restriction.countP (fun s => a ∈ s) ≤ 1 ↔
      ∀ s ∈ restriction, ∀ t ∈ restriction, a ∈ s → a ∈ t → s = t := by
  have hfil := hord.filter fun s => decide (a ∈ s)
  have hmem : ∀ s, s ∈ restriction.filter (fun s => decide (a ∈ s)) ↔ s ∈ restriction ∧ a ∈ s :=
    fun s => by simp [List.mem_filter]
  rw [List.countP_eq_length_filter]
  constructor
  · intro hlen s hs t ht has hat
    have hs' := (hmem s).mpr ⟨hs, has⟩
    have ht' := (hmem t).mpr ⟨ht, hat⟩
    match hl : restriction.filter fun s => decide (a ∈ s) with
    | [] => rw [hl] at hs'; cases hs'
    | [u] =>
      rw [hl, List.mem_singleton] at hs' ht'
      rw [hs', ht']
    | u :: w :: rest => rw [hl] at hlen; simp at hlen
  · intro huniq
    match hl : restriction.filter fun s => decide (a ∈ s) with
    | [] => simp
    | [u] => simp
    | u :: w :: rest =>
      have hu := (hmem u).mp (by rw [hl]; simp)
      have hw := (hmem w).mp (by rw [hl]; simp)
      rw [hl, List.pairwise_cons] at hfil
      have hlt := hfil.1 w List.mem_cons_self
      rw [huniq u hu.1 w hw.1 hu.2 hw.2] at hlt
      exact absurd hlt (AddrSpace.lt_irrefl w)

/-- The result of `trim` is sound exactly when no address of the container lies in two members
of the restriction. -/
theorem sound_trim_iff [DecidableEq V] {pc : ParamContainer V} (h : Sound pc)
    {restriction : List AddrSpace} (hord : restriction.Pairwise AddrSpace.lt)
    (hwf : ∀ s ∈ restriction, s.WellFormed) :
    Sound (trim restriction pc) ↔
      ∀ a, valueAt pc a ≠ none → ∀ s ∈ restriction, ∀ t ∈ restriction, a ∈ s → a ∈ t → s = t := by
  have hlen : ∀ a, (valuesAt (trim restriction pc) a).length =
      (valueAt pc a).toList.length * restriction.countP (fun s => a ∈ s) := by
    intro a
    rw [(valuesAt_trim h hord hwf a).length_eq]
    cases valueAt pc a <;> simp
  have htidy : Tidy (trim restriction pc) := (tidy_defrag (tidy_trim_raw h hord hwf)).1
  constructor
  · intro hs a hdef
    rw [← countP_mem_le_one hord]
    have hle := hs.apart a
    rw [hlen] at hle
    cases hv : valueAt pc a with
    | none => exact absurd hv hdef
    | some v => simpa [hv] using hle
  · intro huniq
    refine Sound.of_tidy htidy fun a => ?_
    rw [hlen]
    cases hv : valueAt pc a with
    | none => simp
    | some v => simpa using (countP_mem_le_one hord a).mpr (huniq a (by simp [hv]))

/-! ## The normal form -/

variable [DecidableEq V]

/-- No two neighbours can be merged. -/
def Compact (pc : ParamContainer V) : Prop := defragOnce pc = none

theorem compact_defrag (pc : ParamContainer V) : Compact (defrag pc) := by
  fun_induction defrag pc with
  | case1 pc hnone => exact hnone
  | case2 pc pc' hsome ih => exact ih

theorem Compact.tail {p : AddrSpace × V} {pc : ParamContainer V} (h : Compact (p :: pc)) :
    Compact pc := by
  unfold Compact at h ⊢
  match pc with
  | [] => rfl
  | q :: rest =>
    rw [defragOnce] at h
    split_ifs at h with hmerge
    exact Option.map_eq_none_iff.mp h

/-- Beyond the first range of a compact container its value does not go on. -/
theorem Compact.valueAt_succ {as : AddrSpace} {v : V} {pc : ParamContainer V}
    (h : Compact ((as, v) :: pc)) (hs : Sound ((as, v) :: pc)) :
    valueAt ((as, v) :: pc) (as.endAddress + 1) ≠ some v := by
  intro hval
  obtain ⟨k, hk, hmem⟩ := hs.apart.valueAt_eq_some.mp hval
  rw [AddrSpace.mem_def] at hmem
  rcases List.mem_cons.mp hk with heq | hk
  · obtain rfl : k = as := by injection heq
    omega
  · match pc with
    | [] => cases hk
    | (as2, w) :: rest =>
      have hend := (hs.wellFormed (k, v) (List.mem_cons_of_mem _ hk)).end_lt
      have has2 := (hs.wellFormed (as2, w) (by simp)).base_le_end
      have hord := hs.ordered
      simp only [List.pairwise_cons, List.mem_cons, forall_eq_or_imp] at hord hend has2
      have hadj : as2.baseAddress = as.endAddress + 1 ∧ w = v := by
        rcases List.mem_cons.mp hk with heq | hk'
        · obtain ⟨rfl, rfl⟩ : k = as2 ∧ v = w := by simpa using heq
          exact ⟨by omega, rfl⟩
        · have hlt : as2.endAddress < k.baseAddress := hord.2.1 (k, v) hk'
          omega
      unfold Compact at h
      rw [defragOnce, if_pos] at h
      · cases h
      · exact ⟨by rw [Nat.mod_eq_of_lt (by omega)]; exact hadj.1.symm, hadj.2.symm⟩

omit [DecidableEq V] in
theorem valueAt_head {p : AddrSpace × V} {pc : ParamContainer V} {a : ℕ} (ha : a ∈ p.1) :
    valueAt (p :: pc) a = some p.2 := by
  rw [valueAt, valuesAt_cons_of_mem _ ha]
  rfl

omit [DecidableEq V] in
/-- Before its first range a sound container has no value. -/
theorem Sound.valueAt_lt {p : AddrSpace × V} {pc : ParamContainer V} (h : Sound (p :: pc)) {a : ℕ}
    (ha : a < p.1.baseAddress) : valueAt (p :: pc) a = none := by
  rw [valueAt_eq_none]
  intro q hq hqa
  rw [AddrSpace.mem_def] at hqa
  rcases List.mem_cons.mp hq with rfl | hq
  · omega
  · have := (List.pairwise_cons.mp h.sorted).1 q hq
    omega

/-- The first ranges of two compact containers with the same map are the same. -/
theorem Compact.head_le {p q : AddrSpace × V} {pc pc' : ParamContainer V} (h : Compact (p :: pc))
    (hs : Sound (p :: pc)) (hs' : Sound (q :: pc'))
    (heq : ∀ a, valueAt (p :: pc) a = valueAt (q :: pc') a) :
    p.1.baseAddress ≤ q.1.baseAddress ∧
      (p.1.baseAddress = q.1.baseAddress → p.2 = q.2 ∧ q.1.endAddress ≤ p.1.endAddress) := by
  have hq := (hs'.wellFormed q List.mem_cons_self)
  have hp := (hs.wellFormed p List.mem_cons_self)
  constructor
  · by_contra hlt
    have hnone := hs.valueAt_lt (a := q.1.baseAddress) (by omega)
    rw [heq, valueAt_head hq.base_mem] at hnone
    cases hnone
  · intro hbase
    have hval : p.2 = q.2 := by
      have := heq p.1.baseAddress
      rw [valueAt_head hp.base_mem, hbase, valueAt_head hq.base_mem] at this
      exact Option.some.inj this
    refine ⟨hval, ?_⟩
    by_contra hlt
    refine h.valueAt_succ hs ?_
    have hin : p.1.endAddress + 1 ∈ q.1 := by
      have := hp.base_le_end
      rw [AddrSpace.mem_def]
      omega
    rw [heq, valueAt_head hin, hval]

/-- Defragmented containers with the same map are equal. -/
theorem Compact.ext {pc pc' : ParamContainer V} (h : Compact pc) (h' : Compact pc') (hs : Sound pc)
    (hs' : Sound pc') (heq : ∀ a, valueAt pc a = valueAt pc' a) : pc = pc' := by
  induction pc generalizing pc' with
  | nil =>
    cases pc' with
    | nil => rfl
    | cons q pc' =>
      have := heq q.1.baseAddress
      rw [valueAt_head (hs'.wellFormed q List.mem_cons_self).base_mem] at this
      cases this
  | cons p pc ih =>
    cases pc' with
    | nil =>
      have := heq p.1.baseAddress
      rw [valueAt_head (hs.wellFormed p List.mem_cons_self).base_mem] at this
      cases this
    | cons q pc' =>
      have h1 := h.head_le hs hs' heq
      have h2 := h'.head_le hs' hs fun a => (heq a).symm
      have hbase : p.1.baseAddress = q.1.baseAddress := Nat.le_antisymm h1.1 h2.1
      have hend : p.1.endAddress = q.1.endAddress :=
        Nat.le_antisymm (h2.2 hbase.symm).2 (h1.2 hbase).2
      have hpq : p = q := by
        have hval := (h1.2 hbase).1
        obtain ⟨⟨pb, pe⟩, pv⟩ := p
        obtain ⟨⟨qb, qe⟩, qv⟩ := q
        simp only at hbase hend hval
        rw [hbase, hend, hval]
      subst hpq
      have hsub : Sound pc := hs.sublist (List.sublist_cons_self _ _)
      have hsub' : Sound pc' := hs'.sublist (List.sublist_cons_self _ _)
      have htail : ∀ a, valueAt pc a = valueAt pc' a := by
        intro a
        have h1 := (Sound.erase (l := []) hs).2.2 a
        have h2 := (Sound.erase (l := []) hs').2.2 a
        simp only [List.nil_append] at h1 h2
        rw [h1, h2]
        by_cases ha : a ∈ p.1
        · simp [ha]
        · simp only [ha, if_false]
          exact heq a
      rw [ih h.tail h'.tail hsub hsub' htail]

end Vpsim.Core.ParamContainer
