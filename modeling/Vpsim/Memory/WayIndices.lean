import Vpsim.Memory.MruReplacement

/-!
# The way array and its indices

`CacheSet` as the code keeps it: a way array whose length is the line size, indices that are an `unsigned` counter or
an `int`, and an associativity that the set stores in 32 bits. An access out of the array stops the run. Where the
array is long enough the code does what `CacheSet` says, with the victim converted to an `int`, so that the ways from
`2 ^ 31` on are out of reach.
-/

namespace Vpsim.Memory

open Vpsim.Lib

/-- A set as the code keeps it. -/
structure WaySet where
  associativity : ℕ
  policy : CacheReplacementPolicy
  allocated : ℕ
  lines : ℕ → LineWrapper
  nextVictim : ℤ
  countUntilRepl : ℕ

/-- Why an access to a set stops. -/
inductive WayFault
  | outOfRange (index : ℤ)
  | asserted
  deriving DecidableEq

abbrev OnWays := EStateM WayFault WaySet

namespace WaySet

/-- Conversion to `int`. -/
@[irreducible] def toInt (n : ℤ) : ℤ := Int.bmod n wordSize

/-- `Lines[index]`. -/
def readWay (index : ℤ) : OnWays LineWrapper := do
  let s ← get
  if 0 ≤ index ∧ index < s.allocated then return s.lines index.toNat else throw (.outOfRange index)

/-- An assignment to `Lines[index]`. -/
def writeWay (index : ℤ) (f : LineWrapper → LineWrapper) : OnWays PUnit := do
  let s ← get
  if 0 ≤ index ∧ index < s.allocated then
    set { s with lines := Function.update s.lines index.toNat (f (s.lines index.toNat)) }
  else throw (.outOfRange index)

/-- `initSet`, after the allocation of `lineSize` wrappers. -/
def initSet : OnWays PUnit := do
  let s ← get
  (List.range s.associativity).forM fun i =>
    writeWay i fun _ => ⟨{}, if s.policy = .fifo then 0 else s.associativity - i - 1⟩

/-- Change the replacement data of a way, if asked to. -/
def bumpWay (asked : Bool) (goes : ℕ → ℕ) (i : ℕ) : OnWays PUnit :=
  if asked then writeWay i fun w => { w with replData := goes w.replData } else pure ⟨⟩

/-- One round of the loop of `updateReplacementData`. `moves` compares the replacement data of the accessed way with
that of the own one, `goes` changes it, and `elect` makes the way the victim. -/
def replRound (moves : ℕ → ℕ → Bool) (goes : ℕ → ℕ) (elect : ℕ → Bool) (lineId : ℤ) (i : ℕ) : OnWays PUnit := do
  let own ← readWay i
  let used ← readWay lineId
  bumpWay (moves used.replData own.replData) goes i
  let now ← readWay i
  if elect now.replData then modify fun s => { s with nextVictim := toInt i }

/-- The step of the MRU case to the next victim while there is free space. -/
def countFill (s : WaySet) : WaySet :=
  if s.countUntilRepl < s.associativity - 1 then
    { s with nextVictim := toInt (s.nextVictim + 1), countUntilRepl := s.countUntilRepl + 1 }
  else s

/-- `updateReplacementData`. -/
def updateReplacementData (lineId : ℤ) : OnWays PUnit := do
  let s ← get
  match s.policy with
  | .lru =>
    (List.range s.associativity).forM
      (replRound (fun used own => decide (own < used)) (· + 1) (fun r => r == s.associativity - 1) lineId)
    writeWay lineId fun w => { w with replData := 0 }
  | .mru =>
    if s.countUntilRepl < s.associativity then
      (List.range s.associativity).forM
        (replRound (fun used own => decide (used < own)) (· - 1)
          (fun r => r == s.associativity - 1 && decide (s.associativity - 1 ≤ s.countUntilRepl)) lineId)
      modify countFill
      writeWay lineId fun w => { w with replData := s.associativity - 1 }
    else throw .asserted
  | .fifo => set { s with nextVictim := toInt ((s.nextVictim + 1) % s.associativity) }

/-- The search of `locateLineInSet` over the ways left. -/
def locateFrom (tag : ℕ) : List ℕ → OnWays ℤ
  | [] => return -1
  | i :: rest => do
    let w ← readWay i
    if w.line.tag = tag ∧ w.line.Valid then return toInt i else locateFrom tag rest

/-- `locateLineInSet`. -/
def locateLineInSet (tag : ℕ) : OnWays ℤ := do
  let s ← get
  locateFrom tag (List.range s.associativity)

/-- `accessSet`: the hit, and the index of the line whose address is stored through `linePtrAddr`, if any is. -/
def accessSet (tag : ℕ) : OnWays (Bool × Option ℤ) := do
  let lineIndex ← locateLineInSet tag
  let s ← get
  let lineInCache := decide (-1 < lineIndex ∧ lineIndex % wordSize < s.associativity)
  match s.policy with
  | .fifo => return (lineInCache, none)
  | _ =>
    let way := if lineInCache then lineIndex else s.nextVictim
    updateReplacementData way
    return (lineInCache, some way)

/-- One use of a set: an access, and what the callers then make of its lines. -/
structure Use where
  tag : ℕ
  relabel : ℕ → CacheLine → CacheLine

/-- The callers change the lines. -/
def withLines (s : WaySet) (relabel : ℕ → CacheLine → CacheLine) : WaySet :=
  { s with lines := fun i => { s.lines i with line := relabel i (s.lines i).line } }

def use (u : Use) : OnWays PUnit := do
  let _ ← accessSet u.tag
  modify fun s => s.withLines u.relabel

/-- The access stays in the array, and stores a pointer to one of the set's ways. -/
def HandsWay (s : WaySet) (u : Use) : Prop :=
  ∃ (hit : Bool) (way : ℤ) (t : WaySet),
    accessSet u.tag s = .ok (hit, some way) t ∧ 0 ≤ way ∧ way < s.associativity

end WaySet

/-- What the constructor of `CacheBase` gets. -/
structure CacheGeometry where
  cacheSize : ℕ
  cacheLineSize : ℕ
  associativity : ℕ
  replPolicy : CacheReplacementPolicy

namespace CacheGeometry

/-- The constructor divides by the line size and by the associativity, and asserts that there are lines enough. All
values are 64 bits wide. -/
structure Accepted (g : CacheGeometry) : Prop where
  cacheSize_lt : g.cacheSize < 2 ^ 64
  lineSize_pos : 0 < g.cacheLineSize
  associativity_pos : 0 < g.associativity
  associativity_le : g.associativity ≤ g.cacheSize / g.cacheLineSize

/-- The set before `initSet`: the line size and the associativity as an `unsigned`. -/
def newSet (g : CacheGeometry) (fill : ℕ → LineWrapper) : WaySet where
  associativity := g.associativity % wordSize
  policy := g.replPolicy
  allocated := g.cacheLineSize % wordSize
  lines := fill
  nextVictim := 0
  countUntilRepl := 0

/-- Every index of the set's construction and of a run of uses is in the array, and every access hands back a way. -/
def WaysInRange (g : CacheGeometry) : Prop :=
  ∀ (fill : ℕ → LineWrapper) (uses : List WaySet.Use),
    ∃ s, WaySet.initSet (g.newSet fill) = .ok ⟨⟩ s ∧ Along WaySet.use WaySet.HandsWay s uses

end CacheGeometry

namespace WaySet

open CacheSet

section Simulation

variable {w : WaySet} {s : CacheSet}

theorem readWay_ok {i : ℕ} (h : i < w.allocated) : readWay i w = .ok (w.lines i) w := by
  have hin : 0 ≤ (i : ℤ) ∧ (i : ℤ) < w.allocated := by omega
  unfold readWay
  refine (bind_of_ok (show (get : OnWays WaySet) w = .ok w w from rfl)).trans ?_
  rw [if_pos hin]
  rfl

theorem writeWay_ok {i : ℕ} (h : i < w.allocated) (f : LineWrapper → LineWrapper) :
    writeWay i f w = .ok ⟨⟩ { w with lines := Function.update w.lines i (f (w.lines i)) } := by
  have hin : 0 ≤ (i : ℤ) ∧ (i : ℤ) < w.allocated := by omega
  unfold writeWay
  refine (bind_of_ok (show (get : OnWays WaySet) w = .ok w w from rfl)).trans ?_
  rw [if_pos hin]
  rfl

theorem readWay_error {i : ℕ} (h : w.allocated ≤ i) : readWay i w = .error (.outOfRange i) w := by
  have hout : ¬ (0 ≤ (i : ℤ) ∧ (i : ℤ) < w.allocated) := by omega
  unfold readWay
  refine (bind_of_ok (show (get : OnWays WaySet) w = .ok w w from rfl)).trans ?_
  rw [if_neg hout]
  rfl

theorem writeWay_error {i : ℕ} (h : w.allocated ≤ i) (f : LineWrapper → LineWrapper) :
    writeWay i f w = .error (.outOfRange i) w := by
  have hout : ¬ (0 ≤ (i : ℤ) ∧ (i : ℤ) < w.allocated) := by omega
  unfold writeWay
  refine (bind_of_ok (show (get : OnWays WaySet) w = .ok w w from rfl)).trans ?_
  rw [if_neg hout]
  rfl

/-- The set in the middle of a replacement loop. -/
def withLoop (w : WaySet) (acc : (ℕ → LineWrapper) × ℕ) : WaySet :=
  { w with lines := acc.1, nextVictim := toInt acc.2 }

theorem bumpWay_ok (asked : Bool) (goes : ℕ → ℕ) {i : ℕ} (hi : i < w.allocated) (acc : (ℕ → LineWrapper) × ℕ) :
    bumpWay asked goes i (w.withLoop acc) = .ok ⟨⟩ (w.withLoop
      (setReplData acc.1 i (if asked then goes (acc.1 i).replData else (acc.1 i).replData), acc.2)) := by
  unfold bumpWay
  cases asked with
  | true =>
    rw [if_pos rfl, if_pos rfl, writeWay_ok (w := w.withLoop acc) hi]
    simp only [withLoop, setReplData]
  | false =>
    have hkeep : setReplData acc.1 i (acc.1 i).replData = acc.1 := Function.update_eq_self i acc.1
    rw [if_neg Bool.false_ne_true, if_neg Bool.false_ne_true, hkeep]
    rfl

/-- A round of the loop does what `replStep` says. -/
theorem replRound_ok (moves : ℕ → ℕ → Bool) (goes : ℕ → ℕ) (elect : ℕ → Bool) {lineId i : ℕ}
    (hline : lineId < w.allocated) (hi : i < w.allocated) (acc : (ℕ → LineWrapper) × ℕ) :
    replRound moves goes elect lineId i (w.withLoop acc) = .ok ⟨⟩ (w.withLoop
      (replStep (fun used own => if moves used own then goes own else own) elect lineId acc i)) := by
  obtain ⟨r, hr⟩ : ∃ r, r = if moves (acc.1 lineId).replData (acc.1 i).replData then
    goes (acc.1 i).replData else (acc.1 i).replData := ⟨_, rfl⟩
  have hbump := bumpWay_ok (w := w) (moves (acc.1 lineId).replData (acc.1 i).replData) goes hi acc
  have hnow : ((setReplData acc.1 i r) i).replData = r := by
    rw [setReplData_replData, if_pos rfl]
  rw [← hr] at hbump
  unfold replRound replStep
  refine (bind_of_ok (readWay_ok (w := w.withLoop acc) hi)).trans ?_
  refine (bind_of_ok (readWay_ok (w := w.withLoop acc) hline)).trans ((bind_of_ok hbump).trans ?_)
  refine (bind_of_ok (readWay_ok (w := w.withLoop (setReplData acc.1 i r, acc.2)) hi)).trans ?_
  change (if elect ((setReplData acc.1 i r) i).replData then _ else _ : OnWays PUnit) _ = _
  dsimp only
  rw [hnow, ← hr]
  split <;> rfl

/-- The loop over ways of the array does what `replLoop` says. -/
theorem replRounds_ok (moves : ℕ → ℕ → Bool) (goes : ℕ → ℕ) (elect : ℕ → Bool) {lineId : ℕ}
    (hline : lineId < w.allocated) {ways : List ℕ} (hways : ∀ i ∈ ways, i < w.allocated)
    (acc : (ℕ → LineWrapper) × ℕ) :
    ways.forM (replRound moves goes elect lineId) (w.withLoop acc) = .ok ⟨⟩ (w.withLoop
      (replLoop ways (fun used own => if moves used own then goes own else own) elect lineId acc)) := by
  induction ways generalizing acc with
  | nil => rfl
  | cons i ways ih =>
    have hround := replRound_ok moves goes elect hline (hways i List.mem_cons_self) acc
    exact (bind_of_ok hround).trans (ih (fun j hj => hways j (List.mem_cons_of_mem i hj)) _)

/-- A set of the model as the code keeps it. -/
def ofSet (s : CacheSet) : WaySet where
  associativity := s.associativity
  policy := s.policy
  allocated := s.allocated
  lines := s.lines
  nextVictim := toInt s.nextVictim
  countUntilRepl := s.countUntilRepl

theorem toInt_add_one (n : ℤ) : toInt (toInt n + 1) = toInt (n + 1) := by
  unfold toInt
  rw [Int.bmod_add_bmod]

theorem updateReplacementData_allocated (way : ℕ) : (s.updateReplacementData way).allocated = s.allocated := by
  unfold CacheSet.updateReplacementData
  split <;> rfl

theorem updateReplacementData_count (hp : s.policy = .lru) (way : ℕ) :
    (s.updateReplacementData way).countUntilRepl = s.countUntilRepl := by
  unfold CacheSet.updateReplacementData
  split <;> simp_all

/-- Setting the replacement data of the accessed way ends an update. -/
theorem writeRepl_ok {lineId : ℕ} (hline : lineId < w.allocated) (r : ℕ) :
    writeWay lineId (fun l => { l with replData := r }) w =
      .ok ⟨⟩ { w with lines := setReplData w.lines lineId r } :=
  writeWay_ok hline _

theorem updateReplacementData_ok_lru (hp : s.policy = .lru) (hroom : s.associativity ≤ s.allocated) {lineId : ℕ}
    (hline : lineId < s.associativity) :
    updateReplacementData lineId (ofSet s) = .ok ⟨⟩ (ofSet (s.updateReplacementData lineId)) := by
  have hlineRoom : lineId < s.allocated := Nat.lt_of_lt_of_le hline hroom
  have hways : ∀ i ∈ List.range s.associativity, i < (ofSet s).allocated := by
    intro i hi
    exact Nat.lt_of_lt_of_le (List.mem_range.mp hi) hroom
  have hloop := replRounds_ok (w := ofSet s) (fun used own => decide (own < used)) (· + 1)
    (fun r => r == s.associativity - 1) hlineRoom hways (s.lines, s.nextVictim)
  simp only [decide_eq_true_eq] at hloop
  have hafter : ofSet (s.updateReplacementData lineId) =
      { (ofSet s).withLoop (s.lruLoop lineId) with lines := setReplData (s.lruLoop lineId).1 lineId 0 } := by
    unfold ofSet withLoop
    rw [updateReplacementData_allocated, updateReplacementData_count hp, (updateReplacementData_lru hp).1,
      (updateReplacementData_lru hp).2, updateReplacementData_associativity, updateReplacementData_policy]
  unfold updateReplacementData
  refine (bind_of_ok (show (get : OnWays WaySet) (ofSet s) = .ok (ofSet s) (ofSet s) from rfl)).trans ?_
  rw [show (ofSet s).policy = .lru from hp]
  refine (bind_of_ok hloop).trans ?_
  rw [hafter]
  exact writeRepl_ok (w := (ofSet s).withLoop (s.lruLoop lineId)) hlineRoom 0

theorem updateReplacementData_ok_mru (hp : s.policy = .mru) (hroom : s.associativity ≤ s.allocated) {lineId : ℕ}
    (hline : lineId < s.associativity) :
    updateReplacementData lineId (ofSet s) = .ok ⟨⟩ (ofSet (s.updateReplacementData lineId)) := by
  have hlineRoom : lineId < s.allocated := Nat.lt_of_lt_of_le hline hroom
  have hways : ∀ i ∈ List.range s.associativity, i < (ofSet s).allocated := by
    intro i hi
    exact Nat.lt_of_lt_of_le (List.mem_range.mp hi) hroom
  have hloop := replRounds_ok (w := ofSet s) (fun used own => decide (used < own)) (· - 1)
    (fun r => r == s.associativity - 1 && decide (s.associativity - 1 ≤ s.countUntilRepl)) hlineRoom hways
    (s.lines, s.nextVictim)
  simp only [decide_eq_true_eq] at hloop
  have hafter : ofSet (s.updateReplacementData lineId) =
      { countFill ((ofSet s).withLoop (s.mruLoop lineId)) with
        lines := setReplData (s.mruLoop lineId).1 lineId (s.associativity - 1) } := by
    obtain ⟨hlines, hvictim, hcount⟩ := @updateReplacementData_mru s lineId hp
    unfold ofSet withLoop countFill
    rw [updateReplacementData_allocated, hlines, hvictim, hcount, updateReplacementData_associativity,
      updateReplacementData_policy]
    dsimp only
    by_cases hfree : s.countUntilRepl + 1 < s.associativity
    · rw [if_pos hfree, if_pos hfree, if_pos (by omega), toInt_add_one, Int.natCast_succ]
    · rw [if_neg hfree, if_neg hfree, if_neg (by omega)]
  have hroomFill : lineId < (countFill ((ofSet s).withLoop (s.mruLoop lineId))).allocated := by
    unfold countFill
    split <;> exact hlineRoom
  have hlinesFill : (countFill ((ofSet s).withLoop (s.mruLoop lineId))).lines = (s.mruLoop lineId).1 := by
    unfold countFill
    split <;> rfl
  unfold updateReplacementData
  refine (bind_of_ok (show (get : OnWays WaySet) (ofSet s) = .ok (ofSet s) (ofSet s) from rfl)).trans ?_
  rw [show (ofSet s).policy = .mru from hp]
  refine (congrFun (if_pos s.count_lt) (ofSet s)).trans ((bind_of_ok hloop).trans ?_)
  rw [hafter, ← hlinesFill]
  exact writeRepl_ok hroomFill (s.associativity - 1)

/-- In an array that has the set's ways the code updates the replacement data as the model does. -/
theorem updateReplacementData_ok (hp : s.policy ≠ .fifo) (hroom : s.associativity ≤ s.allocated) {lineId : ℕ}
    (hline : lineId < s.associativity) :
    updateReplacementData lineId (ofSet s) = .ok ⟨⟩ (ofSet (s.updateReplacementData lineId)) := by
  cases hpolicy : s.policy with
  | fifo => exact absurd hpolicy hp
  | lru => exact updateReplacementData_ok_lru hpolicy hroom hline
  | mru => exact updateReplacementData_ok_mru hpolicy hroom hline

theorem locateFrom_ok (tag : ℕ) {ways : List ℕ} (hways : ∀ i ∈ ways, i < s.allocated) :
    locateFrom tag ways (ofSet s) =
      .ok (match ways.find? fun i => (s.line i).tag = tag ∧ (s.line i).Valid with
        | some i => toInt i
        | none => -1) (ofSet s) := by
  induction ways with
  | nil => rfl
  | cons i ways ih =>
    have hread := readWay_ok (w := ofSet s) (hways i List.mem_cons_self)
    unfold locateFrom
    refine (bind_of_ok hread).trans ?_
    by_cases hfound : (s.line i).tag = tag ∧ (s.line i).Valid
    · rw [List.find?_cons_of_pos (by simpa using hfound)]
      exact congrFun (if_pos hfound) (ofSet s)
    · rw [List.find?_cons_of_neg (by simpa using hfound)]
      exact (congrFun (if_neg hfound) (ofSet s)).trans (ih fun j hj => hways j (List.mem_cons_of_mem i hj))

theorem toInt_of_lt {n : ℕ} (h : n < 2 ^ 31) : toInt n = n := by
  unfold toInt wordSize
  rw [Int.bmod_eq_of_le] <;> omega

theorem locateLineInSet_ok (hroom : s.associativity ≤ s.allocated) (tag : ℕ) :
    locateLineInSet tag (ofSet s) =
      .ok (match s.locateLineInSet tag with
        | some i => toInt i
        | none => -1) (ofSet s) := by
  unfold locateLineInSet
  refine (bind_of_ok (show (get : OnWays WaySet) (ofSet s) = .ok (ofSet s) (ofSet s) from rfl)).trans ?_
  exact locateFrom_ok tag fun i hi => Nat.lt_of_lt_of_le (List.mem_range.mp hi) hroom

/-- The rest of an access, once the search is done. -/
theorem accessSet_eq {tag : ℕ} {r way : ℤ} {hit : Bool} (hp : w.policy ≠ .fifo)
    (hlocate : locateLineInSet tag w = .ok r w) (hhit : decide (-1 < r ∧ r % wordSize < w.associativity) = hit)
    (hway : (if hit then r else w.nextVictim) = way) :
    accessSet tag w = (updateReplacementData way >>= fun _ => pure (hit, some way)) w := by
  subst hway hhit
  unfold accessSet
  refine (bind_of_ok hlocate).trans ?_
  refine (bind_of_ok (show (get : OnWays WaySet) w = .ok w w from rfl)).trans ?_
  dsimp only
  cases hpol : w.policy with
  | fifo => exact absurd hpol hp
  | lru => rfl
  | mru => rfl

/-- An access that uses a way below `2 ^ 31` hands back that way. -/
theorem accessSet_ok (hp : s.policy ≠ .fifo) (hroom : s.associativity ≤ s.allocated) (tag : ℕ)
    (hway : UsedSet.accessedWay s tag < 2 ^ 31) :
    ∃ hit, accessSet tag (ofSet s) = .ok (hit, some (UsedSet.accessedWay s tag : ℤ))
      (ofSet (s.updateReplacementData (UsedSet.accessedWay s tag))) := by
  have hlocate := locateLineInSet_ok hroom tag
  have hupdate := updateReplacementData_ok hp hroom (UsedSet.accessedWay_lt s tag)
  have hlt := UsedSet.accessedWay_lt s tag
  have hassoc : (ofSet s).associativity = s.associativity := rfl
  have hvictim : (ofSet s).nextVictim = toInt s.nextVictim := rfl
  suffices h : ∃ hit, accessSet tag (ofSet s) =
      (updateReplacementData (UsedSet.accessedWay s tag) >>=
        fun _ => pure (hit, some (UsedSet.accessedWay s tag : ℤ))) (ofSet s) by
    obtain ⟨hit, heq⟩ := h
    exact ⟨hit, heq.trans (bind_of_ok hupdate)⟩
  unfold UsedSet.accessedWay at *
  cases hfound : s.locateLineInSet tag with
  | none =>
    rw [hfound] at hlocate hway
    dsimp only [Option.getD_none] at hway hlocate ⊢
    refine ⟨false, accessSet_eq hp hlocate (by simp) ?_⟩
    rw [if_neg Bool.false_ne_true, hvictim, toInt_of_lt hway]
  | some i =>
    rw [hfound] at hlocate hway hlt
    dsimp only [Option.getD_some] at hway hlt hlocate ⊢
    rw [toInt_of_lt hway] at hlocate
    refine ⟨true, accessSet_eq hp hlocate ?_ (if_pos rfl)⟩
    rw [decide_eq_true_eq, hassoc]
    unfold wordSize
    omega

end Simulation

section Construction

variable {w v : WaySet}

/-- Writes to different ways of the array change each of them once. -/
theorem writeWays_ok (f : ℕ → LineWrapper → LineWrapper) {ways : List ℕ} (hnodup : ways.Nodup)
    (hways : ∀ i ∈ ways, i < w.allocated) :
    ways.forM (fun i => writeWay i (f i)) w =
      .ok ⟨⟩ { w with lines := fun i => if i ∈ ways then f i (w.lines i) else w.lines i } := by
  induction ways generalizing w with
  | nil => simp only [List.not_mem_nil, if_false]; rfl
  | cons i ways ih =>
    obtain ⟨hi, hnodup⟩ := List.nodup_cons.mp hnodup
    refine (bind_of_ok (writeWay_ok (hways i List.mem_cons_self) (f i))).trans ?_
    refine (ih (w := { w with lines := Function.update w.lines i (f i (w.lines i)) }) hnodup fun j hj => hways j (List.mem_cons_of_mem i hj)).trans ?_
    have hlines : (fun j => if j ∈ ways then f j (Function.update w.lines i (f i (w.lines i)) j)
        else Function.update w.lines i (f i (w.lines i)) j) =
        fun j => if j ∈ i :: ways then f j (w.lines j) else w.lines j := by
      funext j
      by_cases hji : j = i
      · rw [hji, if_neg hi, if_pos List.mem_cons_self, Function.update_self]
      · rw [Function.update_of_ne hji]
        simp [hji]
    dsimp only
    rw [hlines]

/-- Writes that return all stay in the array. -/
theorem lt_of_writeWays (f : ℕ → LineWrapper → LineWrapper) {ways : List ℕ}
    (h : ways.forM (fun i => writeWay i (f i)) w = .ok ⟨⟩ v) : ∀ i ∈ ways, i < w.allocated := by
  induction ways generalizing w with
  | nil => simp
  | cons i ways ih =>
    obtain ⟨u, hwrite, hrest⟩ := forM_cons_ok h
    have hi : i < w.allocated := by
      by_contra hout
      rw [writeWay_error (Nat.not_lt.mp hout)] at hwrite
      cases hwrite
    rw [writeWay_ok hi] at hwrite
    cases hwrite
    intro j hj
    rcases List.mem_cons.mp hj with rfl | hj
    · exact hi
    · exact ih hrest j hj

end Construction

/-- A set whose array has all its ways, none of them out of reach of an `int`. -/
structure Roomy (s : CacheSet) : Prop where
  policy : s.policy ≠ .fifo
  room : s.associativity ≤ s.allocated
  reach : s.associativity ≤ 2 ^ 31

/-- The lines of a set changed by the callers. -/
def relabelSet (s : CacheSet) (relabel : ℕ → CacheLine → CacheLine) : CacheSet :=
  { s with lines := fun i => { s.lines i with line := relabel i (s.lines i).line } }

/-- Where the way is below `2 ^ 31`, a use hands it back and updates the set. -/
theorem use_ok {s : CacheSet} (hp : s.policy ≠ .fifo) (hroom : s.associativity ≤ s.allocated) (u : Use)
    (hway : UsedSet.accessedWay s u.tag < 2 ^ 31) :
    (ofSet s).HandsWay u ∧ use u (ofSet s) =
      .ok ⟨⟩ (ofSet (relabelSet (s.updateReplacementData (UsedSet.accessedWay s u.tag)) u.relabel)) := by
  obtain ⟨hit, haccess⟩ := accessSet_ok hp hroom u.tag hway
  constructor
  · refine ⟨hit, _, _, haccess, by omega, ?_⟩
    have hlt := UsedSet.accessedWay_lt s u.tag
    change (UsedSet.accessedWay s u.tag : ℤ) < (s.associativity : ℤ)
    omega
  · exact bind_of_ok haccess

theorem Roomy.use {s : CacheSet} (h : Roomy s) (u : Use) :
    (ofSet s).HandsWay u ∧ ∃ t, Roomy t ∧ WaySet.use u (ofSet s) = .ok ⟨⟩ (ofSet t) := by
  have hway : UsedSet.accessedWay s u.tag < 2 ^ 31 :=
    Nat.lt_of_lt_of_le (UsedSet.accessedWay_lt s u.tag) h.reach
  obtain ⟨hhands, huse⟩ := use_ok h.policy h.room u hway
  refine ⟨hhands, _, ⟨?_, ?_, ?_⟩, huse⟩
  · exact fun heq => h.policy ((updateReplacementData_policy s _).symm.trans heq)
  · change (s.updateReplacementData _).associativity ≤ (s.updateReplacementData _).allocated
    rw [updateReplacementData_associativity, updateReplacementData_allocated]
    exact h.room
  · change (s.updateReplacementData _).associativity ≤ 2 ^ 31
    rw [updateReplacementData_associativity]
    exact h.reach

/-- In a set with room for its ways every access of a run hands back a way. -/
theorem Roomy.along {s : CacheSet} (h : Roomy s) (uses : List Use) : Along WaySet.use HandsWay (ofSet s) uses := by
  induction uses generalizing s with
  | nil => trivial
  | cons u uses ih =>
    obtain ⟨hhands, t, ht, huse⟩ := h.use u
    refine ⟨hhands, fun v hv => ?_⟩
    rw [huse] at hv
    cases hv
    exact ih ht

/-- The use of a set under the FIFO policy hands back no way. -/
theorem not_handsWay_fifo {w : WaySet} (hp : w.policy = .fifo) (u : Use) : ¬ w.HandsWay u := by
  rintro ⟨hit, way, t, haccess, -⟩
  have hkeep : ∀ ways : List ℕ, ∀ r v, locateFrom u.tag ways w = .ok r v → v = w := by
    intro ways
    induction ways with
    | nil =>
      intro r v h
      cases h
      rfl
    | cons i ways ih =>
      intro r v h
      by_cases hi : i < w.allocated
      · rw [locateFrom, bind_of_ok (readWay_ok hi)] at h
        by_cases hfound : (w.lines i).line.tag = u.tag ∧ (w.lines i).line.Valid
        · rw [if_pos hfound] at h
          cases h
          rfl
        · rw [if_neg hfound] at h
          exact ih r v h
      · rw [locateFrom, bind_of_error (readWay_error (Nat.not_lt.mp hi))] at h
        cases h
  unfold accessSet at haccess
  cases hlocate : locateLineInSet u.tag w with
  | error e v =>
    rw [bind_of_error hlocate] at haccess
    cases haccess
  | ok r v =>
    have hv : v = w := hkeep _ r v hlocate
    rw [bind_of_ok hlocate, hv,
      bind_of_ok (show (get : OnWays WaySet) w = .ok w w from rfl), hp] at haccess
    cases haccess

/-- A set of which `n` ways were handed back one after the other, and left invalid. -/
structure Missed (n : ℕ) (s : CacheSet) : Prop where
  room : s.associativity ≤ s.allocated
  victim : s.nextVictim = n
  invalid : ∀ i < s.associativity, ¬ (s.line i).Valid
  ranks : (s.policy = .lru ∧ ∀ i < s.associativity,
      s.replRank i = if i < n then n - 1 - i else s.associativity - 1 - i + n) ∨
    (s.policy = .mru ∧ s.countUntilRepl = n)

theorem Missed.policy {n : ℕ} {s : CacheSet} (h : Missed n s) : s.policy ≠ .fifo := by
  rcases h.ranks with ⟨hp, -⟩ | ⟨hp, -⟩ <;> rw [hp] <;> exact nofun

theorem Missed.locateLineInSet {n : ℕ} {s : CacheSet} (h : Missed n s) (tag : ℕ) :
    s.locateLineInSet tag = none := by
  cases hfound : s.locateLineInSet tag with
  | none => rfl
  | some i =>
    obtain ⟨hi, -, hvalid⟩ := findWay_eq_some hfound
    exact absurd hvalid (h.invalid i hi)

/-- No way holds the tag, so the access uses the victim. -/
theorem Missed.accessedWay {n : ℕ} {s : CacheSet} (h : Missed n s) (tag : ℕ) :
    UsedSet.accessedWay s tag = n := by
  unfold UsedSet.accessedWay
  rw [h.locateLineInSet tag]
  exact h.victim

/-- The next access hands back the next way. -/
theorem Missed.next {n : ℕ} {s : CacheSet} (h : Missed n s) (hn : n + 1 < s.associativity) :
    Missed (n + 1) (s.updateReplacementData n) := by
  have hassoc := updateReplacementData_associativity s n
  have hnlt : n < s.associativity := by omega
  have hlines := (s.updateReplacementData_sameLines n).line
  refine ⟨?_, ?_, ?_, ?_⟩
  · rw [hassoc, updateReplacementData_allocated]
    exact h.room
  · rcases h.ranks with ⟨hp, hranks⟩ | ⟨hp, hcount⟩
    · -- the second oldest way comes right after the oldest, and is elected after it
      have htop := hranks n hnlt
      have hnext := hranks (n + 1) hn
      rw [if_neg (by omega)] at htop hnext
      refine nextVictim_updateReplacementData hp hn ?_ fun i hi hlt => ?_
      · rw [lruLoop_replData hn, htop, hnext]
        split_ifs <;> omega
      · have hi' := hranks i hi
        rw [if_neg (by omega)] at hi'
        rw [lruLoop_replData hi, htop, hi']
        split_ifs <;> omega
    · rw [(updateReplacementData_mru hp).2.1, if_pos (by omega), mruLoop_victim_filling (by omega), h.victim]
  · intro i hi
    rw [hassoc] at hi
    rw [hlines]
    exact h.invalid i hi
  · rw [hassoc, updateReplacementData_policy]
    rcases h.ranks with ⟨hp, hranks⟩ | ⟨hp, hcount⟩
    · refine Or.inl ⟨hp, fun i hi => ?_⟩
      have htop := hranks n hnlt
      have hi' := hranks i hi
      rw [if_neg (by omega)] at htop
      rw [replRank_updateReplacementData hp hi]
      unfold touch
      rw [htop, hi']
      split_ifs <;> omega
    · refine Or.inr ⟨hp, ?_⟩
      rw [(updateReplacementData_mru hp).2.2, if_pos (by omega), hcount]

/-- An access whose caller leaves the lines as they are. -/
def probe : Use := ⟨0, fun _ l => l⟩

theorem Missed.use {n : ℕ} {s : CacheSet} (h : Missed n s) (hreach : n < 2 ^ 31) :
    WaySet.use probe (ofSet s) = .ok ⟨⟩ (ofSet (s.updateReplacementData n)) := by
  have haccessed := h.accessedWay probe.tag
  obtain ⟨-, huse⟩ := use_ok h.policy h.room probe (by rw [haccessed]; exact hreach)
  rw [haccessed] at huse
  exact huse

/-- Misses go through the ways up to the first one out of reach. -/
theorem Missed.run {n : ℕ} {s : CacheSet} (k : ℕ) (h : Missed n s) (hk : n + k < s.associativity)
    (hreach : n + k ≤ 2 ^ 31) :
    ∃ t, (List.replicate k probe).forM WaySet.use (ofSet s) = .ok ⟨⟩ (ofSet t) ∧ Missed (n + k) t ∧
      t.associativity = s.associativity := by
  induction k generalizing n s with
  | zero => exact ⟨s, rfl, h, rfl⟩
  | succ k ih =>
    have huse := h.use (by omega)
    obtain ⟨t, hrun, hmissed, hassoc⟩ := ih (h.next (by omega))
      (by rw [updateReplacementData_associativity]; omega) (by omega)
    refine ⟨t, (bind_of_ok huse).trans hrun, ?_, hassoc.trans (updateReplacementData_associativity s n)⟩
    rw [show n + (k + 1) = n + 1 + k by omega]
    exact hmissed

theorem toInt_neg {n : ℕ} (h : n = 2 ^ 31) : toInt n < 0 := by
  unfold toInt wordSize
  rw [Int.bmod_def]
  omega

/-- On a miss the way is the victim, whatever an `int` makes of it. -/
theorem way_of_miss {s : CacheSet} {t : WaySet} {tag : ℕ} {hit : Bool} {way : ℤ} (hp : s.policy ≠ .fifo)
    (hroom : s.associativity ≤ s.allocated) (hnone : s.locateLineInSet tag = none)
    (haccess : accessSet tag (ofSet s) = .ok (hit, some way) t) : way = (ofSet s).nextVictim := by
  have hlocate := locateLineInSet_ok hroom tag
  rw [hnone] at hlocate
  have heq : accessSet tag (ofSet s) = (updateReplacementData (ofSet s).nextVictim >>=
      fun _ => pure (false, some (ofSet s).nextVictim)) (ofSet s) :=
    accessSet_eq hp hlocate (by simp) (if_neg Bool.false_ne_true)
  rw [heq] at haccess
  cases hupdate : updateReplacementData (ofSet s).nextVictim (ofSet s) with
  | ok u v =>
    rw [bind_of_ok hupdate] at haccess
    cases haccess
    rfl
  | error e v =>
    rw [bind_of_error hupdate] at haccess
    cases haccess

/-- An access whose victim is out of reach does not hand back a way. -/
theorem Missed.not_handsWay {n : ℕ} {s : CacheSet} (h : Missed n s) (hn : n = 2 ^ 31) :
    ¬ (ofSet s).HandsWay probe := by
  rintro ⟨hit, way, t, haccess, hway, -⟩
  have hvictim : (ofSet s).nextVictim < 0 := toInt_neg (h.victim.trans hn)
  have heq := way_of_miss h.policy h.room (h.locateLineInSet probe.tag) haccess
  omega

end WaySet

namespace CacheGeometry

open WaySet CacheSet

variable {g : CacheGeometry}

/-- The set after its construction. -/
def builtSet (g : CacheGeometry) (fill : ℕ → LineWrapper) (h : 0 < g.associativity % wordSize) : CacheSet :=
  { CacheSet.init (g.cacheLineSize % wordSize) (g.associativity % wordSize) g.replPolicy h with
    lines := fun i => if i < g.associativity % wordSize then
      ⟨{}, if g.replPolicy = .fifo then 0 else g.associativity % wordSize - i - 1⟩ else fill i }

theorem initSet_ok (fill : ℕ → LineWrapper) (h : 0 < g.associativity % wordSize)
    (hroom : g.associativity % wordSize ≤ g.cacheLineSize % wordSize) :
    initSet (g.newSet fill) = .ok ⟨⟩ (ofSet (g.builtSet fill h)) := by
  have hzero : toInt ((0 : ℕ) : ℤ) = 0 := by
    unfold toInt
    rfl
  have hways : ∀ i ∈ List.range (g.associativity % wordSize), i < (g.newSet fill).allocated := by
    intro i hi
    exact Nat.lt_of_lt_of_le (List.mem_range.mp hi) hroom
  have hwrite := writeWays_ok (w := g.newSet fill)
    (fun i _ => ⟨{}, if g.replPolicy = .fifo then 0 else g.associativity % wordSize - i - 1⟩) List.nodup_range hways
  have hbuilt : ofSet (g.builtSet fill h) = { g.newSet fill with
      lines := fun i => if i ∈ List.range (g.associativity % wordSize) then
        ⟨{}, if g.replPolicy = .fifo then 0 else g.associativity % wordSize - i - 1⟩ else fill i } := by
    simp only [ofSet, builtSet, newSet, CacheSet.init, List.mem_range, hzero]
  rw [hbuilt]
  exact hwrite

/-- The first ways of a set just built are handed back one after the other. -/
theorem builtSet_missed (fill : ℕ → LineWrapper) (h : 0 < g.associativity % wordSize)
    (hroom : g.associativity % wordSize ≤ g.cacheLineSize % wordSize) (hp : g.replPolicy ≠ .fifo) :
    Missed 0 (g.builtSet fill h) := by
  refine ⟨hroom, rfl, fun i hi => ?_, ?_⟩
  · change i < g.associativity % wordSize at hi
    have hline : (g.builtSet fill h).line i = {} := by
      unfold CacheSet.line builtSet
      dsimp only
      rw [if_pos hi]
    rw [hline]
    exact fun hvalid => hvalid rfl
  · have hrank : ∀ i < g.associativity % wordSize,
        (g.builtSet fill h).replRank i = g.associativity % wordSize - i - 1 := by
      intro i hi
      unfold replRank builtSet
      dsimp only
      rw [if_pos hi, if_neg hp]
    cases hpolicy : g.replPolicy with
    | fifo => exact absurd hpolicy hp
    | lru =>
      refine Or.inl ⟨hpolicy, fun i hi => ?_⟩
      rw [if_neg (Nat.not_lt_zero i), hrank i hi]
      change _ = g.associativity % wordSize - 1 - i + 0
      omega
    | mru => exact Or.inr ⟨hpolicy, rfl⟩

/-- All ways stay in range exactly when the policy is not FIFO and the associativity, as the code counts
it, is positive, at most the line size and at most `2 ^ 31`. -/
theorem waysInRange_iff :
    g.WaysInRange ↔ g.replPolicy ≠ .fifo ∧ 0 < g.associativity % wordSize ∧
      g.associativity % wordSize ≤ g.cacheLineSize % wordSize ∧ g.associativity % wordSize ≤ 2 ^ 31 := by
  constructor
  · intro hrange
    obtain ⟨s, hinit, hfirst, -⟩ := hrange (fun _ => ⟨{}, 0⟩) [probe]
    have hroom : g.associativity % wordSize ≤ g.cacheLineSize % wordSize := by
      by_contra hlong
      have hmem : g.cacheLineSize % wordSize ∈ List.range (g.associativity % wordSize) :=
        List.mem_range.mpr (Nat.not_le.mp hlong)
      have hlt := lt_of_writeWays _ hinit _ hmem
      exact absurd hlt (Nat.lt_irrefl _)
    have hpos : 0 < g.associativity % wordSize := by
      by_contra hnone
      have hzero : g.associativity % wordSize = 0 := Nat.eq_zero_of_not_pos hnone
      have hempty : initSet (g.newSet fun _ => ⟨{}, 0⟩) = .ok ⟨⟩ (g.newSet fun _ => ⟨{}, 0⟩) := by
        have hways : List.range (g.newSet fun _ => ⟨{}, 0⟩).associativity = [] := by
          rw [show (g.newSet fun _ => ⟨{}, 0⟩).associativity = 0 from hzero, List.range_zero]
        unfold initSet
        refine (bind_of_ok (show (get : OnWays WaySet) _ = .ok _ _ from rfl)).trans ?_
        rw [hways]
        rfl
      rw [hempty] at hinit
      cases hinit
      obtain ⟨-, way, -, -, hway, hlt⟩ := hfirst
      rw [show (g.newSet fun _ => ⟨{}, 0⟩).associativity = 0 from hzero] at hlt
      omega
    have hpolicy : g.replPolicy ≠ .fifo := by
      intro hp
      rw [initSet_ok _ hpos hroom] at hinit
      cases hinit
      exact not_handsWay_fifo hp probe hfirst
    refine ⟨hpolicy, hpos, hroom, ?_⟩
    by_contra hfar
    -- misses up to the first way out of reach
    obtain ⟨s, hinit, halong⟩ := hrange (fun _ => ⟨{}, 0⟩) (List.replicate (2 ^ 31) probe ++ [probe])
    rw [initSet_ok _ hpos hroom] at hinit
    cases hinit
    have hstart := builtSet_missed (fun _ => ⟨{}, 0⟩) hpos hroom hpolicy
    obtain ⟨t, hrun, hmissed, -⟩ := hstart.run (2 ^ 31) (by
      change 0 + 2 ^ 31 < g.associativity % wordSize
      omega) (by omega)
    rw [Nat.zero_add] at hmissed
    exact hmissed.not_handsWay rfl (halong.append hrun).1
  · rintro ⟨hpolicy, hpos, hroom, hreach⟩ fill uses
    exact ⟨_, initSet_ok fill hpos hroom, Roomy.along ⟨hpolicy, hroom, hreach⟩ uses⟩

/-- Lines of 16 bytes and 32 ways: the 17th way is not in the array. And with the FIFO policy the first access stores
no pointer. -/
theorem not_waysInRange :
    (⟨65536, 16, 32, .lru⟩ : CacheGeometry).Accepted ∧
      (∃ s, initSet ((⟨65536, 16, 32, .lru⟩ : CacheGeometry).newSet fun _ => ⟨{}, 0⟩) = .error (.outOfRange 16) s) ∧
      ¬ (⟨65536, 16, 32, .lru⟩ : CacheGeometry).WaysInRange ∧
      (⟨32768, 64, 4, .fifo⟩ : CacheGeometry).Accepted ∧
      ¬ (⟨32768, 64, 4, .fifo⟩ : CacheGeometry).WaysInRange := by
  have hinit : ∃ e s, initSet ((⟨65536, 16, 32, .lru⟩ : CacheGeometry).newSet fun _ => ⟨{}, 0⟩) = .error e s ∧
      decide (e = .outOfRange 16) = true :=
    exists_error_of_stopsWith (p := fun e _ => decide (e = WayFault.outOfRange 16)) (by decide +kernel)
  obtain ⟨e, s, hs, he⟩ := hinit
  rw [of_decide_eq_true he] at hs
  refine ⟨⟨by decide, by decide, by decide, by decide⟩, ⟨s, hs⟩, fun hrange => ?_,
    ⟨by decide, by decide, by decide, by decide⟩, fun hrange => ?_⟩
  · obtain ⟨t, ht, -⟩ := hrange (fun _ => ⟨{}, 0⟩) []
    rw [hs] at ht
    cases ht
  · obtain ⟨t, ht, halong⟩ := hrange (fun _ => ⟨{}, 0⟩) [probe]
    rw [initSet_ok _ (by decide) (by decide)] at ht
    cases ht
    exact not_handsWay_fifo rfl probe halong.1

end CacheGeometry

end Vpsim.Memory
