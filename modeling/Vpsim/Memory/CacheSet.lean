import Mathlib.Algebra.Group.Nat.Even
import Mathlib.Data.List.Range
import Mathlib.Logic.Function.Basic

/-!
# Cache lines and cache sets

`CacheLine` and `CacheSet` with their replacement policies. Tags are stored in an
`unsigned`, so a stored tag is the remainder modulo `2 ^ 32` of the tag that an access
function computes in 64 bits.

A set carries the ranges of `NextVictim` and `CountUntilRepl` as fields, so the way that a
miss returns is always one of the set's ways. The way array is indexed by natural numbers;
`allocated` is the length the source allocates for it.
-/

namespace Vpsim.Memory

/-- State of a line, and of the upper copies of a line in a directory entry. -/
inductive CoherenceState
  | modified
  | shared
  | invalid
deriving DecidableEq, Repr

/-- The replacement policies. -/
inductive CacheReplacementPolicy
  | fifo
  | lru
  | mru
deriving DecidableEq, Repr

/-- The value of the enumerator. -/
def CacheReplacementPolicy.toNat : CacheReplacementPolicy → ℕ
  | .fifo => 0
  | .lru => 1
  | .mru => 2

/-- Number of values of an `unsigned`. -/
def wordSize : ℕ := 2 ^ 32

/-- One line of a cache. -/
structure CacheLine where
  address : ℕ := 0
  tag : ℕ := 0
  state : CoherenceState := .invalid
  handle : ℕ := 0
deriving DecidableEq, Repr

namespace CacheLine

/-- A line that holds data. -/
def Valid (l : CacheLine) : Prop := l.state ≠ .invalid

instance (l : CacheLine) : Decidable l.Valid := inferInstanceAs (Decidable (l.state ≠ .invalid))

/-- `setState`. -/
def setState (l : CacheLine) (state : CoherenceState) : CacheLine := { l with state := state }

/-- `setNewLine`, followed by the assignment of `handle` that every caller makes. -/
def setNewLine (l : CacheLine) (address tag handle : ℕ) : CacheLine :=
  { l with address := address, tag := tag % wordSize, state := .invalid, handle := handle }

end CacheLine

/-- A line with its replacement data. -/
structure LineWrapper where
  line : CacheLine
  replData : ℕ
deriving DecidableEq, Repr

/-- One set of a cache. -/
structure CacheSet where
  associativity : ℕ
  policy : CacheReplacementPolicy
  lines : ℕ → LineWrapper
  allocated : ℕ
  nextVictim : ℕ
  countUntilRepl : ℕ
  victim_lt : nextVictim < associativity
  count_lt : countUntilRepl < associativity
  mru_victim : policy = .mru → countUntilRepl + 1 < associativity → nextVictim ≤ countUntilRepl

namespace CacheSet

/-- The line of a way. -/
def line (s : CacheSet) (way : ℕ) : CacheLine := (s.lines way).line

/-- `initSet`: the source allocates `lineSize` wrappers and initialises `assoc` of them. -/
def init (lineSize assoc : ℕ) (policy : CacheReplacementPolicy) (h : 0 < assoc) : CacheSet where
  associativity := assoc
  policy := policy
  lines i := { line := {}, replData := if policy = .fifo then 0 else assoc - i - 1 }
  allocated := lineSize
  nextVictim := 0
  countUntilRepl := 0
  victim_lt := h
  count_lt := h
  mru_victim _ _ := le_rfl

/-- The first way whose line satisfies `p`. -/
def findWay (s : CacheSet) (p : CacheLine → Prop) [DecidablePred p] : Option ℕ :=
  (List.range s.associativity).find? fun i => p (s.line i)

/-- `locateLineInSet`, with `none` for the result -1. -/
def locateLineInSet (s : CacheSet) (tag : ℕ) : Option ℕ :=
  s.findWay fun l => l.tag = tag ∧ l.Valid

/-- Give a way its replacement data. -/
def setReplData (lines : ℕ → LineWrapper) (way r : ℕ) : ℕ → LineWrapper :=
  Function.update lines way { lines way with replData := r }

/-- Replacement data does not touch the lines. -/
theorem setReplData_line (lines : ℕ → LineWrapper) (way r i : ℕ) :
    (setReplData lines way r i).line = (lines i).line := by
  unfold setReplData
  by_cases h : i = way
  · rw [h, Function.update_self]
  · rw [Function.update_of_ne h]

/-- One round of the loop of `updateReplacementData`. `bump` computes the new replacement data
of a way from that of the accessed way and its own; `elect` makes the way the victim. -/
def replStep (bump : ℕ → ℕ → ℕ) (elect : ℕ → Bool) (lineId : ℕ) (acc : (ℕ → LineWrapper) × ℕ)
    (i : ℕ) : (ℕ → LineWrapper) × ℕ :=
  let r := bump (acc.1 lineId).replData (acc.1 i).replData
  (setReplData acc.1 i r, if elect r then i else acc.2)

/-- The loop of `updateReplacementData` over the ways. -/
def replLoop (ways : List ℕ) (bump : ℕ → ℕ → ℕ) (elect : ℕ → Bool) (lineId : ℕ)
    (start : (ℕ → LineWrapper) × ℕ) : (ℕ → LineWrapper) × ℕ :=
  ways.foldl (replStep bump elect lineId) start

/-- The replacement loop changes no line. -/
theorem replLoop_line (ways : List ℕ) (bump : ℕ → ℕ → ℕ) (elect : ℕ → Bool) (lineId : ℕ)
    (start : (ℕ → LineWrapper) × ℕ) (i : ℕ) :
    ((replLoop ways bump elect lineId start).1 i).line = (start.1 i).line := by
  induction ways generalizing start with
  | nil => rfl
  | cons w ways ih => exact (ih _).trans (setReplData_line _ _ _ _)

/-- The victim elected by the replacement loop is the old one or one of the ways. -/
theorem replLoop_victim_lt {assoc : ℕ} (ways : List ℕ) (hways : ∀ i ∈ ways, i < assoc)
    (bump : ℕ → ℕ → ℕ) (elect : ℕ → Bool) (lineId : ℕ) (start : (ℕ → LineWrapper) × ℕ)
    (h : start.2 < assoc) : (replLoop ways bump elect lineId start).2 < assoc := by
  induction ways generalizing start with
  | nil => exact h
  | cons w ways ih =>
    refine ih (fun i hi => hways i (List.mem_cons_of_mem _ hi)) _ ?_
    unfold replStep
    dsimp only
    split
    · exact hways w List.mem_cons_self
    · exact h

/-- With an election that never succeeds the victim stays. -/
theorem replLoop_victim_eq (ways : List ℕ) (bump : ℕ → ℕ → ℕ) (lineId : ℕ) (elect : ℕ → Bool)
    (helect : ∀ r, elect r = false) (start : (ℕ → LineWrapper) × ℕ) :
    (replLoop ways bump elect lineId start).2 = start.2 := by
  induction ways generalizing start with
  | nil => rfl
  | cons w ways ih =>
    refine (ih _).trans ?_
    simp [replStep, helect]

/-- The loop of the LRU policy: ways younger than the accessed one age by one, and the oldest
way becomes the victim. -/
def lruLoop (s : CacheSet) (lineId : ℕ) : (ℕ → LineWrapper) × ℕ :=
  replLoop (List.range s.associativity) (fun rid r => if r < rid then r + 1 else r)
    (fun r => r == s.associativity - 1) lineId (s.lines, s.nextVictim)

/-- The loop of the MRU policy, which elects a victim only once the set has filled up. -/
def mruLoop (s : CacheSet) (lineId : ℕ) : (ℕ → LineWrapper) × ℕ :=
  replLoop (List.range s.associativity) (fun rid r => if rid < r then r - 1 else r)
    (fun r => r == s.associativity - 1 && decide (s.associativity - 1 ≤ s.countUntilRepl)) lineId
    (s.lines, s.nextVictim)

/-- The victim after the MRU loop is a way of the set, the next one while the set fills up. -/
theorem mruLoop_victim (s : CacheSet) (lineId : ℕ) (h : s.policy = .mru) :
    (s.mruLoop lineId).2 < s.associativity ∧
      (s.countUntilRepl + 1 < s.associativity → (s.mruLoop lineId).2 ≤ s.countUntilRepl) := by
  refine ⟨replLoop_victim_lt _ (fun i hi => List.mem_range.1 hi) _ _ _ _ s.victim_lt, fun hcount => ?_⟩
  rw [mruLoop, replLoop_victim_eq]
  · exact s.mru_victim h hcount
  · intro r
    rw [decide_eq_false (by omega), Bool.and_false]

/-- `updateReplacementData`. The assertion of the MRU case, `CountUntilRepl < Associativity`,
is the field `count_lt`. -/
def updateReplacementData (s : CacheSet) (lineId : ℕ) : CacheSet :=
  match hp : s.policy with
  | .lru =>
    { s with
      lines := setReplData (s.lruLoop lineId).1 lineId 0
      nextVictim := (s.lruLoop lineId).2
      victim_lt := replLoop_victim_lt _ (fun i hi => List.mem_range.1 hi) _ _ _ _ s.victim_lt
      mru_victim := fun h => by rw [hp] at h; cases h }
  | .mru =>
    { s with
      lines := setReplData (s.mruLoop lineId).1 lineId (s.associativity - 1)
      nextVictim := if s.countUntilRepl + 1 < s.associativity then (s.mruLoop lineId).2 + 1
        else (s.mruLoop lineId).2
      countUntilRepl := if s.countUntilRepl + 1 < s.associativity then s.countUntilRepl + 1
        else s.countUntilRepl
      victim_lt := by
        have := s.mruLoop_victim lineId hp
        split <;> omega
      count_lt := by
        have := s.count_lt
        split <;> omega
      mru_victim := fun _ => by
        have := s.mruLoop_victim lineId hp
        split <;> omega }
  | .fifo =>
    { s with
      nextVictim := (s.nextVictim + 1) % s.associativity
      victim_lt := Nat.mod_lt _ (Nat.zero_lt_of_lt s.victim_lt)
      mru_victim := fun h => by rw [hp] at h; cases h }

/-- `accessSet`: whether the tag is present, the way handed back through `linePtrAddr` and the
set afterwards. For the FIFO policy the source assigns no line to `linePtrAddr`. -/
def accessSet (s : CacheSet) (tag : ℕ) : Option ((Bool × ℕ) × CacheSet) :=
  if s.policy = .fifo then none
  else match s.locateLineInSet tag with
    | some way => some ((true, way), s.updateReplacementData way)
    | none => some ((false, s.nextVictim), s.updateReplacementData s.nextVictim)

/-- Replace the line of a way. -/
def modifyLine (s : CacheSet) (way : ℕ) (f : CacheLine → CacheLine) : CacheSet :=
  { s with
    lines := Function.update s.lines way { s.lines way with line := f (s.line way) } }

@[simp] theorem modifyLine_associativity (s : CacheSet) (way : ℕ) (f : CacheLine → CacheLine) :
    (s.modifyLine way f).associativity = s.associativity := rfl

@[simp] theorem modifyLine_line (s : CacheSet) (way : ℕ) (f : CacheLine → CacheLine) :
    (s.modifyLine way f).line way = f (s.line way) := by
  simp [modifyLine, line]

theorem modifyLine_line_of_ne (s : CacheSet) {way i : ℕ} (f : CacheLine → CacheLine)
    (h : i ≠ way) : (s.modifyLine way f).line i = s.line i := by
  simp [modifyLine, line, h]

/-- Two sets that differ in their replacement data only. -/
structure SameLines (s s' : CacheSet) : Prop where
  associativity : s'.associativity = s.associativity
  policy : s'.policy = s.policy
  line : ∀ i, s'.line i = s.line i

/-- Replacement data changes neither the ways nor their lines. -/
theorem updateReplacementData_sameLines (s : CacheSet) (lineId : ℕ) :
    SameLines s (s.updateReplacementData lineId) := by
  unfold updateReplacementData
  split
  · exact ⟨rfl, rfl, fun i => (setReplData_line _ _ _ i).trans (replLoop_line _ _ _ _ _ i)⟩
  · exact ⟨rfl, rfl, fun i => (setReplData_line _ _ _ i).trans (replLoop_line _ _ _ _ _ i)⟩
  · exact ⟨rfl, rfl, fun i => rfl⟩

/-- A search over the ways finds a way of the set with the property. -/
theorem findWay_eq_some {s : CacheSet} {p : CacheLine → Prop} [DecidablePred p] {way : ℕ}
    (h : s.findWay p = some way) : way < s.associativity ∧ p (s.line way) := by
  have hmem := List.mem_of_find?_eq_some h
  have hp := List.find?_some h
  exact ⟨List.mem_range.1 hmem, by simpa using hp⟩

/-- A search over the ways that finds nothing has tried them all. -/
theorem findWay_eq_none {s : CacheSet} {p : CacheLine → Prop} [DecidablePred p]
    (h : s.findWay p = none) {way : ℕ} (hway : way < s.associativity) : ¬ p (s.line way) := by
  have hall := List.find?_eq_none.1 h way (List.mem_range.2 hway)
  simpa using hall

/-- Only the FIFO policy leaves the line unassigned. -/
theorem policy_of_accessSet_eq_none {s : CacheSet} {tag : ℕ} (h : s.accessSet tag = none) :
    s.policy = .fifo := by
  unfold accessSet at h
  split at h
  · assumption
  · cases hl : s.locateLineInSet tag <;> simp [hl] at h

/-- What an access to a set does: it changes no line, and it returns a way of the set that
holds the tag on a hit and no way holds it on a miss. -/
theorem accessSet_spec {s s' : CacheSet} {tag way : ℕ} {hit : Bool}
    (h : s.accessSet tag = some ((hit, way), s')) :
    SameLines s s' ∧ way < s.associativity ∧
      (if hit then (s.line way).tag = tag ∧ (s.line way).Valid
        else ∀ i < s.associativity, (s.line i).tag = tag → ¬ (s.line i).Valid) := by
  unfold accessSet at h
  split at h
  · cases h
  · cases hl : s.locateLineInSet tag with
    | some w =>
      rw [hl] at h
      cases h
      obtain ⟨hway, hp⟩ := findWay_eq_some hl
      exact ⟨s.updateReplacementData_sameLines way, hway, by simpa using hp⟩
    | none =>
      rw [hl] at h
      cases h
      refine ⟨s.updateReplacementData_sameLines s.nextVictim, s.victim_lt, ?_⟩
      rw [if_neg (by simp)]
      intro i hi htag hvalid
      exact findWay_eq_none hl hi ⟨htag, hvalid⟩

end CacheSet

end Vpsim.Memory
