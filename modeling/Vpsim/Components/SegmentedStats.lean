import Vpsim.Lib.OrderedMap
import Mathlib.Data.String.Basic
import Mathlib.Data.List.Nodup
import Mathlib.Algebra.BigOperators.Group.List.Basic
import Mathlib.Algebra.GroupWithZero.Nat

/-!
# Statistics by segment

Each call of `pushStats` closes a segment of the run: for every counter of the component it stores the
value of the counter less the number that the previous call stored. The components differ in their
counters only. Numbers are stored as decimal texts.
-/

namespace Vpsim.Components

open Vpsim.Lib

/-- An element of `mSegmentedStats`: a `std::map` from the names of the counters to decimal numbers. -/
abbrev Segment := List (String × String)

/-- `stoull` of a decimal text. -/
def stoull (s : String) : ℕ := Nat.ofDigitChars 10 s.toList 0

/-- The difference of two 64-bit numbers. -/
def difference (c old : ℕ) : ℕ := (c + (2 ^ 64 - old)) % 2 ^ 64

/-- The element that stands in front of the segments: zero for each counter. -/
def zeros (stats : List (String × ℕ)) : Segment := stats.foldl (fun new stat => setEntry stat.1 "0" new) []

/-- The new element, from the counters and the last element; a name that is not found there throws. -/
def newSegment (back : Segment) : List (String × ℕ) → Segment → Option Segment
  | [], new => some new
  | stat :: rest, new =>
    (findEntry stat.1 back).bind fun old =>
      newSegment back rest (setEntry stat.1 (toString (difference stat.2 (stoull old))) new)

/-- `pushStats` of a component whose counters have the names and values `stats`. -/
def pushStats (stats : List (String × ℕ)) (segmentedStats : List Segment) : Option (List Segment) :=
  let segmentedStats := if segmentedStats.isEmpty then [zeros stats] else segmentedStats
  segmentedStats.getLast?.bind fun back =>
    (newSegment back stats []).map fun new => segmentedStats ++ [new]

/-- A kind of component: its counters `C`, and the name and value of each of them in the order of
`pushStats`. No name is used twice. -/
structure StatSource (C : Type) where
  names : List String
  stats : C → List (String × ℕ)
  names_eq : ∀ c, (stats c).map Prod.fst = names
  nodup : names.Nodup

/-- The counters of `DynamicCache`. -/
structure CacheCounters where
  misses : ℕ
  hits : ℕ
  reads : ℕ
  writes : ℕ
  writeBacks : ℕ
  invals : ℕ
  totalInvals : ℕ
  backInvals : ℕ
  evictions : ℕ
  evictBacks : ℕ
  putS : ℕ
  putM : ℕ
  putI : ℕ
  getS : ℕ
  getM : ℕ
  fwdGetS : ℕ
  fwdGetM : ℕ

/-- `DynamicCache::pushStats`. -/
def DynamicCache : StatSource CacheCounters where
  names := ["misses", "hits", "reads", "writes", "write_backs", "real_invalidations", "total_invalidations",
    "back_invalidations", "evictions", "evict_backs", "PutS", "PutM", "PutI", "GetS", "GetM", "FwdGetS", "FwdGetM"]
  stats c := [("misses", c.misses), ("hits", c.hits), ("reads", c.reads), ("writes", c.writes),
    ("write_backs", c.writeBacks), ("real_invalidations", c.invals), ("total_invalidations", c.totalInvals),
    ("back_invalidations", c.backInvals), ("evictions", c.evictions), ("evict_backs", c.evictBacks),
    ("PutS", c.putS), ("PutM", c.putM), ("PutI", c.putI), ("GetS", c.getS), ("GetM", c.getM),
    ("FwdGetS", c.fwdGetS), ("FwdGetM", c.fwdGetM)]
  names_eq _ := rfl
  nodup := by decide

/-- The counters of `DynamicArm`. -/
structure ArmCounters where
  instructionCount : ℕ
  dataAccessCount : ℕ

/-- `DynamicArm::pushStats`. -/
def DynamicArm : StatSource ArmCounters where
  names := ["instructions", "data_access"]
  stats c := [("instructions", c.instructionCount), ("data_access", c.dataAccessCount)]
  names_eq _ := rfl
  nodup := by decide

/-- The counters of `DynamicInterconnect`, for each output port. -/
structure InterconnectCounters where
  readCount : ℕ → ℕ
  writeCount : ℕ → ℕ

/-- A decimal text is read back as the number it was made from. -/
@[simp] theorem stoull_toString (n : ℕ) : stoull (toString n) = n := by
  rw [stoull, Nat.toString_eq_repr, Nat.toList_repr, Nat.ofDigitChars_ten_toDigits]

/-- A port number is determined by the name made with it. -/
theorem append_toString_inj {base : String} {i j : ℕ} (h : base ++ toString i = base ++ toString j) : i = j := by
  have hlist := congrArg String.toList h
  rw [String.toList_append, String.toList_append] at hlist
  have hsame : toString i = toString j := String.toList_inj.mp (List.append_cancel_left hlist)
  rw [← stoull_toString i, hsame, stoull_toString]

theorem reads_ne_writes (i j : ℕ) : "reads" ++ toString i ≠ "writes" ++ toString j := by
  intro h
  have hlist := congrArg String.toList h
  rw [String.toList_append, String.toList_append] at hlist
  exact absurd (List.cons.inj hlist).1 (by decide)

theorem interconnect_names_nodup (maxOutPortCount : ℕ) :
    ((List.range maxOutPortCount).flatMap fun i => ["reads" ++ toString i, "writes" ++ toString i]).Nodup := by
  rw [List.nodup_flatMap]
  constructor
  · intro i _
    rw [List.nodup_cons, List.mem_singleton]
    exact ⟨reads_ne_writes i i, List.nodup_singleton _⟩
  · apply List.nodup_range.imp
    intro i j hij name hi hj
    simp only [List.mem_cons, List.not_mem_nil, or_false] at hi hj
    rcases hi with rfl | rfl
    · rcases hj with hj | hj
      · exact hij (append_toString_inj hj)
      · exact reads_ne_writes i j hj
    · rcases hj with hj | hj
      · exact reads_ne_writes j i hj.symm
      · exact hij (append_toString_inj hj)

/-- `DynamicInterconnect::pushStats`. -/
def DynamicInterconnect (maxOutPortCount : ℕ) : StatSource InterconnectCounters where
  names := (List.range maxOutPortCount).flatMap fun i => ["reads" ++ toString i, "writes" ++ toString i]
  stats c := (List.range maxOutPortCount).flatMap fun i =>
    [("reads" ++ toString i, c.readCount i), ("writes" ++ toString i, c.writeCount i)]
  names_eq _ := List.map_flatMap
  nodup := interconnect_names_nodup maxOutPortCount

/-- The calls of `pushStats` of one component, each with the counters at that time. -/
def pushAll {C : Type} (src : StatSource C) (history : List C) (segmentedStats : List Segment) :
    Option (List Segment) :=
  history.foldlM (fun segmentedStats c => pushStats (src.stats c) segmentedStats) segmentedStats

/-- The value of a counter. -/
def StatSource.value {C : Type} (src : StatSource C) (name : String) (c : C) : ℕ :=
  (findEntry name (src.stats c)).getD 0

/-- The numbers stored for a counter in the elements behind the first one, which are the segments. -/
def recorded (name : String) (segmentedStats : List Segment) : List (Option ℕ) :=
  segmentedStats.tail.map fun seg => (findEntry name seg).map stoull

/-- The growth of a counter from one value to the next, starting at `last`. -/
def growth : ℕ → List ℕ → List ℕ
  | _, [] => []
  | last, c :: rest => (c - last) :: growth c rest

/-- What `pushStats` stores for a counter, call after call, when the last element holds `old`. -/
def stored : ℕ → List ℕ → List ℕ
  | _, [] => []
  | old, c :: rest => difference c old :: stored (difference c old) rest

/-! ## One call -/

variable {C : Type} {src : StatSource C}

theorem findEntry_zeros {stats : List (String × ℕ)} {name : String} (h : name ∈ stats.map Prod.fst) :
    findEntry name (zeros stats) = some "0" := by
  have hset : ∀ (l : List (String × ℕ)) (new : Segment),
      (name ∈ l.map Prod.fst ∨ findEntry name new = some "0") →
        findEntry name (l.foldl (fun new stat => setEntry stat.1 "0" new) new) = some "0" := by
    intro l
    induction l with
    | nil =>
      intro new h
      exact h.resolve_left List.not_mem_nil
    | cons stat rest ih =>
      intro new h
      rw [List.foldl_cons]
      apply ih
      by_cases hname : name = stat.1
      · rw [hname]
        exact Or.inr findEntry_setEntry_self
      · rw [findEntry_setEntry_of_ne hname]
        exact h.imp_left fun h => (List.mem_cons.mp h).resolve_left hname
  exact hset stats [] (Or.inl h)

/-- The new element holds for each counter its value less what the last element holds. -/
theorem newSegment_spec {back : Segment} {old : String → ℕ} (stats : List (String × ℕ))
    (hback : ∀ name ∈ stats.map Prod.fst, findEntry name back = some (toString (old name)))
    (hnodup : (stats.map Prod.fst).Nodup) (new : Segment) :
    ∃ seg, newSegment back stats new = some seg ∧
      (∀ stat ∈ stats, findEntry stat.1 seg = some (toString (difference stat.2 (old stat.1)))) ∧
      ∀ name ∉ stats.map Prod.fst, findEntry name seg = findEntry name new := by
  induction stats generalizing new with
  | nil => exact ⟨new, rfl, fun stat h => absurd h List.not_mem_nil, fun _ _ => rfl⟩
  | cons stat rest ih =>
    rw [List.map_cons, List.nodup_cons] at hnodup
    obtain ⟨seg, hseg, hfound, hother⟩ := ih
      (fun name h => hback name (List.mem_cons_of_mem _ h)) hnodup.2
      (setEntry stat.1 (toString (difference stat.2 (old stat.1))) new)
    refine ⟨seg, ?_, ?_, ?_⟩
    · rw [newSegment, hback stat.1 List.mem_cons_self, Option.bind_some, stoull_toString]
      exact hseg
    · intro stat' h
      rcases List.mem_cons.mp h with rfl | h
      · rw [hother _ hnodup.1, findEntry_setEntry_self]
      · exact hfound stat' h
    · intro name h
      rw [List.map_cons, List.mem_cons, not_or] at h
      rw [hother name h.2, findEntry_setEntry_of_ne h.1]

theorem StatSource.mem_stats (src : StatSource C) {name : String} (h : name ∈ src.names) (c : C) :
    (name, src.value name c) ∈ src.stats c := by
  rw [← src.names_eq c, List.mem_map] at h
  obtain ⟨stat, hstat, rfl⟩ := h
  obtain ⟨v, hv⟩ := Option.ne_none_iff_exists'.mp (findEntry_ne_none hstat)
  rw [StatSource.value, hv]
  exact mem_of_findEntry hv

/-- One call of `pushStats` appends the differences from the numbers `old` that the last element holds.
-/
theorem pushStats_spec (front : List Segment) {back : Segment} {old : String → ℕ}
    (hback : ∀ name ∈ src.names, findEntry name back = some (toString (old name))) (c : C) :
    ∃ seg, pushStats (src.stats c) (front ++ [back]) = some (front ++ [back] ++ [seg]) ∧
      ∀ name ∈ src.names, findEntry name seg = some (toString (difference (src.value name c) (old name))) := by
  have hnames := src.names_eq c
  obtain ⟨seg, hseg, hfound, -⟩ := newSegment_spec (src.stats c) (hnames ▸ hback) (hnames ▸ src.nodup) []
  refine ⟨seg, ?_, fun name h => hfound _ (src.mem_stats h c)⟩
  have hne : (front ++ [back]).isEmpty = false := by simp
  rw [pushStats]
  simp only [hne, Bool.false_eq_true, if_false, List.getLast?_concat, Option.bind_some, hseg, Option.map_some]

/-- The calls of a run append, for each name, what `stored` computes from the numbers `old`. -/
theorem pushAll_spec (front : List Segment) {back : Segment} {old : String → ℕ}
    (hback : ∀ name ∈ src.names, findEntry name back = some (toString (old name))) (history : List C) :
    ∃ segs, pushAll src history (front ++ [back]) = some (front ++ [back] ++ segs) ∧
      ∀ name ∈ src.names, segs.map (fun seg => (findEntry name seg).map stoull) =
        (stored (old name) (history.map (src.value name))).map some := by
  induction history generalizing front back old with
  | nil => exact ⟨[], by rw [List.append_nil]; rfl, fun _ _ => rfl⟩
  | cons c rest ih =>
    obtain ⟨seg, hpush, hseg⟩ := pushStats_spec front hback c
    obtain ⟨segs, hrest, hsegs⟩ := ih (front ++ [back]) hseg
    refine ⟨seg :: segs, ?_, fun name h => ?_⟩
    · rw [pushAll, List.foldlM_cons, hpush, Option.bind_eq_bind, Option.bind_some]
      refine hrest.trans ?_
      rw [List.append_assoc, List.singleton_append]
    · rw [List.map_cons, hseg name h, hsegs name h, Option.map_some, stoull_toString]
      rfl

/-- A whole run: the numbers of each counter are those of `stored`, from zero on. -/
theorem pushAll_nil (history : List C) :
    ∃ segs, pushAll src history [] = some segs ∧
      ∀ name ∈ src.names, recorded name segs = (stored 0 (history.map (src.value name))).map some := by
  cases history with
  | nil => exact ⟨[], rfl, fun _ _ => rfl⟩
  | cons c rest =>
    have hzero : ∀ name ∈ src.names, findEntry name (zeros (src.stats c)) = some (toString 0) := by
      intro name h
      exact findEntry_zeros ((src.names_eq c).symm ▸ h)
    obtain ⟨segs, hrun, hsegs⟩ := pushAll_spec [] hzero (c :: rest)
    exact ⟨_, hrun, hsegs⟩

/-! ## When the segments partition the counter -/

theorem difference_of_le {c old : ℕ} (h : old ≤ c) (hc : c < 2 ^ 64) : difference c old = c - old := by
  rw [difference]
  omega

/-- Two numbers that are subtracted from a 64-bit number give the same only if they are equal. -/
theorem difference_eq_iff {c old last : ℕ} (hc : c < 2 ^ 64) (hold : old < 2 ^ 64) (hlast : last ≤ c) :
    difference c old = c - last ↔ old = last := by
  rw [difference]
  omega

/-- From the second call on a segment is right when the one before was right and the counter was zero at
the call before that. -/
theorem stored_eq_growth_iff {last c : ℕ} {rest : List ℕ} (h : (last :: c :: rest).Pairwise (· ≤ ·))
    (hlt : ∀ x ∈ last :: c :: rest, x < 2 ^ 64) :
    stored (c - last) rest = growth c rest ↔ ∀ x ∈ (last :: c :: rest).dropLast.dropLast, x = 0 := by
  induction rest generalizing last c with
  | nil => simp [stored, growth]
  | cons d rest ih =>
    have hsub : (c :: d :: rest).Pairwise (· ≤ ·) := h.of_cons
    have hlc : last ≤ c := (List.pairwise_cons.mp h).1 c (by simp)
    have hcd : c ≤ d := (List.pairwise_cons.mp hsub).1 d (by simp)
    have hd : d < 2 ^ 64 := hlt d (by simp)
    rw [stored, growth, List.cons.injEq, difference_eq_iff hd (by omega) hcd]
    have hdrop : (last :: c :: d :: rest).dropLast.dropLast = last :: (c :: d :: rest).dropLast.dropLast := by
      cases rest <;> rfl
    rw [hdrop, List.forall_mem_cons]
    have hrest := ih hsub fun x hx => hlt x (List.mem_cons_of_mem _ hx)
    have hright : c - last = c → difference d (c - last) = d - c :=
      (difference_eq_iff hd (by omega) hcd).mpr
    constructor
    · rintro ⟨heq, htail⟩
      rw [hright heq] at htail
      exact ⟨by omega, hrest.mp htail⟩
    · rintro ⟨rfl, htail⟩
      refine ⟨rfl, ?_⟩
      rw [hright rfl]
      exact hrest.mpr htail

/-- From the first call on, the segments hold the growth exactly when the counter is zero at all calls
but the last two. -/
theorem stored_zero_eq_growth_iff {values : List ℕ} (h : values.Pairwise (· ≤ ·)) (hlt : ∀ x ∈ values, x < 2 ^ 64) :
    stored 0 values = growth 0 values ↔ ∀ x ∈ values.dropLast.dropLast, x = 0 := by
  cases values with
  | nil => simp [stored, growth]
  | cons c rest =>
    have hzero : (0 :: c :: rest).Pairwise (· ≤ ·) := List.pairwise_cons.mpr ⟨fun x _ => Nat.zero_le x, h⟩
    have hiff := stored_eq_growth_iff hzero (List.forall_mem_cons.mpr ⟨by decide, hlt⟩)
    have hfirst : difference c 0 = c := difference_of_le (Nat.zero_le c) (hlt c List.mem_cons_self)
    rw [stored, growth, hfirst, Nat.sub_zero, List.cons.injEq, eq_self_iff_true, true_and]
    rw [Nat.sub_zero] at hiff
    apply hiff.trans
    cases rest with
    | nil => simp
    | cons d rest =>
      have hdrop : (0 :: c :: d :: rest).dropLast.dropLast = 0 :: (c :: d :: rest).dropLast.dropLast := by
        cases rest <;> rfl
      rw [hdrop, List.forall_mem_cons, eq_self_iff_true, true_and]

/-- The growth of a counter sums to its last value. -/
theorem sum_growth {last : ℕ} {values : List ℕ} (h : (last :: values).Pairwise (· ≤ ·)) :
    last + (growth last values).sum = values.getLastD last := by
  induction values generalizing last with
  | nil => rfl
  | cons c rest ih =>
    have hle := (List.pairwise_cons.mp h).1 c List.mem_cons_self
    rw [growth, List.sum_cons, List.getLastD_cons, ← ih h.of_cons]
    omega

/-- The segments of a counter partition its last value: each holds the growth since the call before. -/
structure Partitioned (values : List ℕ) (segments : List (Option ℕ)) : Prop where
  segment : segments = (growth 0 values).map some
  total : (segments.map fun v => v.getD 0).sum = values.getLastD 0

theorem partitioned_iff {values : List ℕ} (h : values.Pairwise (· ≤ ·)) {segments : List (Option ℕ)} :
    Partitioned values segments ↔ segments = (growth 0 values).map some := by
  constructor
  · exact Partitioned.segment
  · rintro rfl
    refine ⟨rfl, ?_⟩
    have hsum := sum_growth (List.pairwise_cons.mpr ⟨fun x _ => Nat.zero_le x, h⟩)
    rw [Nat.zero_add] at hsum
    rw [List.map_map, ← hsum]
    exact congrArg List.sum (List.map_id _)

/-- For a component of any kind and any run of `pushStats` calls, the segments of a counter that does not
decrease partition its last value exactly when the counter was zero at all calls but the last two. -/
theorem segments_partitioned_iff (src : StatSource C) (history : List C) {name : String} (hname : name ∈ src.names)
    (hmono : (history.map (src.value name)).Pairwise (· ≤ ·))
    (hlt : ∀ x ∈ history.map (src.value name), x < 2 ^ 64) :
    ∃ segs, pushAll src history [] = some segs ∧
      (Partitioned (history.map (src.value name)) (recorded name segs) ↔
        ∀ x ∈ (history.map (src.value name)).dropLast.dropLast, x = 0) := by
  obtain ⟨segs, hrun, hsegs⟩ : ∃ segs, pushAll src history [] = some segs ∧
      ∀ name ∈ src.names, recorded name segs = (stored 0 (history.map (src.value name))).map some :=
    pushAll_nil history
  refine ⟨segs, hrun, ?_⟩
  rw [partitioned_iff hmono, hsegs name hname, ← stored_zero_eq_growth_iff hmono hlt]
  exact ⟨fun h => List.map_injective_iff.mpr (fun _ _ => Option.some.inj) h, fun h => congrArg (List.map some) h⟩

/-- A core that executes ten instructions before each of three calls. -/
def threePhases : List ArmCounters := [⟨10, 0⟩, ⟨20, 0⟩, ⟨30, 0⟩]

/-- The third segment holds twenty instructions. -/
theorem threePhases_third :
    (pushAll DynamicArm threePhases []).map (recorded "instructions") = some [some 10, some 10, some 20] ∧
      ¬ Partitioned (threePhases.map (DynamicArm.value "instructions")) [some 10, some 10, some 20] := by
  refine ⟨by decide +kernel, ?_⟩
  intro h
  exact absurd h.segment (by decide +kernel)

theorem segments_partitioned_iff_threePhases :
    ∃ segs, pushAll DynamicArm threePhases [] = some segs ∧
      (Partitioned (threePhases.map (DynamicArm.value "instructions")) (recorded "instructions" segs) ↔
        ∀ x ∈ (threePhases.map (DynamicArm.value "instructions")).dropLast.dropLast, x = 0) :=
  segments_partitioned_iff DynamicArm threePhases (by decide) (by decide +kernel) (by decide +kernel)

end Vpsim.Components
