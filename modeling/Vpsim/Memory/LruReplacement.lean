import Vpsim.Lib.Recency
import Vpsim.Lib.Run
import Vpsim.Memory.CacheSet
import Mathlib.Data.List.Nodup

/-!
# The LRU policy

`updateReplacementData` ages the counters of a set and elects the next victim in one pass over the
ways. The counters follow the use of the ways: they are the ranks of `Lib.Recency`. The election
compares counters while the pass is still to reset that of the way just used, so this way is taken
for the oldest one when it was the oldest before and the new oldest has a lower index.
`electNextVictim`, the separate scan from which the election was taken over, runs on the final
counters.
-/

namespace Vpsim.Memory

open Vpsim.Lib

namespace CacheSet

/-- A scan over the ways for the replacement data that `elect` picks: the last way that has it. -/
def scanWays (elect : ℕ → Bool) (lines : ℕ → LineWrapper) (ways : List ℕ) (victim : ℕ) : ℕ :=
  ways.foldl (fun victim i => if elect (lines i).replData then i else victim) victim

/-- `electNextVictim`: the values of `NextVictim` and `CountUntilRepl` after it. -/
def electNextVictim (s : CacheSet) : ℕ × ℕ :=
  match s.policy with
  | .lru =>
    (scanWays (fun r => r == s.associativity - 1) s.lines (List.range s.associativity) s.nextVictim,
      s.countUntilRepl)
  | .mru =>
    if s.countUntilRepl < s.associativity - 1 then (s.nextVictim + 1, s.countUntilRepl + 1)
    else
      (scanWays (fun r => r == s.associativity - 1) s.lines (List.range s.associativity) s.nextVictim,
        s.countUntilRepl)
  | .fifo => ((s.nextVictim + 1) % s.associativity, s.countUntilRepl)

/-- The counter of a way. -/
def replRank (s : CacheSet) (way : ℕ) : ℕ := (s.lines way).replData

/-- The counters of the ways are the numbers below the associativity. -/
def Ranked (s : CacheSet) : Prop :=
  Set.BijOn s.replRank (Set.Iio s.associativity) (Set.Iio s.associativity)

/-- Setting the replacement data of a way leaves that of the others. -/
theorem setReplData_replData (lines : ℕ → LineWrapper) (way r i : ℕ) :
    (setReplData lines way r i).replData = if i = way then r else (lines i).replData := by
  unfold setReplData
  by_cases h : i = way
  · rw [h, Function.update_self, if_pos rfl]
  · rw [Function.update_of_ne h, if_neg h]

/-- What the replacement loop leaves in the counters, when it leaves that of the accessed way. -/
theorem replLoop_replData (ways : List ℕ) (hways : ways.Nodup) {bump : ℕ → ℕ → ℕ}
    (hbump : ∀ r, bump r r = r) (elect : ℕ → Bool) (lineId : ℕ) (start : (ℕ → LineWrapper) × ℕ) (i : ℕ) :
    ((replLoop ways bump elect lineId start).1 i).replData =
      if i ∈ ways then bump (start.1 lineId).replData (start.1 i).replData
      else (start.1 i).replData := by
  induction ways generalizing start with
  | nil => rfl
  | cons w ways ih =>
    obtain ⟨hw, hways⟩ := List.nodup_cons.1 hways
    have haccessed : ((replStep bump elect lineId start w).1 lineId).replData = (start.1 lineId).replData := by
      change (setReplData _ _ _ lineId).replData = _
      rw [setReplData_replData]
      split
      · rename_i h
        rw [h, hbump]
      · rfl
    have hother : ((replStep bump elect lineId start w).1 i).replData =
        if i = w then bump (start.1 lineId).replData (start.1 i).replData else (start.1 i).replData := by
      change (setReplData _ _ _ i).replData = _
      rw [setReplData_replData]
      split
      · rename_i h
        rw [h]
      · rfl
    refine (ih hways _).trans ?_
    rw [haccessed, hother]
    by_cases hiw : i = w
    · rw [if_pos hiw, if_neg (hiw ▸ hw), if_pos (hiw ▸ List.mem_cons_self)]
    · rw [if_neg hiw]
      simp [hiw]

/-- The victim elected by the replacement loop is the one that a scan of the counters elects as
the loop leaves them. -/
theorem replLoop_victim (ways : List ℕ) (hways : ways.Nodup) {bump : ℕ → ℕ → ℕ}
    (hbump : ∀ r, bump r r = r) (elect : ℕ → Bool) (lineId : ℕ) (start : (ℕ → LineWrapper) × ℕ) :
    (replLoop ways bump elect lineId start).2 =
      scanWays elect (replLoop ways bump elect lineId start).1 ways start.2 := by
  induction ways generalizing start with
  | nil => rfl
  | cons w ways ih =>
    have hkept := replLoop_replData (w :: ways) hways hbump elect lineId start w
    rw [if_pos List.mem_cons_self] at hkept
    refine (ih (List.nodup_cons.1 hways).2 _).trans ?_
    change _ = scanWays elect _ ways (if elect _ then w else start.2)
    rw [hkept]
    rfl

/-- The scan elects the last way that has the value. -/
theorem scanWays_range {elect : ℕ → Bool} {lines : ℕ → LineWrapper} {n way : ℕ} (victim : ℕ) (hway : way < n)
    (helect : elect (lines way).replData = true)
    (hlast : ∀ i < n, way < i → elect (lines i).replData = false) :
    scanWays elect lines (List.range n) victim = way := by
  induction n with
  | zero => exact absurd hway (Nat.not_lt_zero way)
  | succ n ih =>
    unfold scanWays at ih ⊢
    rw [List.range_succ, List.foldl_append]
    change (if elect (lines n).replData then n else _) = way
    by_cases hn : way = n
    · rw [← hn, if_pos helect]
    · have hlt : way < n := by omega
      rw [hlast n (Nat.lt_succ_self n) hlt, if_neg Bool.false_ne_true]
      exact ih hlt fun i hi => hlast i (Nat.lt_succ_of_lt hi)

/-- A scan that elects no way leaves the victim. -/
theorem scanWays_eq {elect : ℕ → Bool} {lines : ℕ → LineWrapper} {ways : List ℕ} (victim : ℕ)
    (hnone : ∀ i ∈ ways, elect (lines i).replData = false) : scanWays elect lines ways victim = victim := by
  induction ways generalizing victim with
  | nil => rfl
  | cons w ways ih =>
    unfold scanWays at ih ⊢
    rw [List.foldl_cons, hnone w List.mem_cons_self, if_neg Bool.false_ne_true]
    exact ih victim fun i hi => hnone i (List.mem_cons_of_mem w hi)

/-- In a set whose counters are a numbering, the scan elects the way with the highest counter. -/
theorem Ranked.electNextVictim {s : CacheSet} (h : s.Ranked) (hp : s.policy = .lru) {way : ℕ}
    (hway : way < s.associativity) (hold : s.replRank way = s.associativity - 1) :
    s.electNextVictim.1 = way := by
  unfold CacheSet.electNextVictim
  simp only [hp]
  apply scanWays_range _ hway
  · exact beq_iff_eq.2 hold
  · intro i hi hlt
    apply beq_false_of_ne
    intro heq
    exact absurd (h.injOn hi hway (heq.trans hold.symm)) (Nat.ne_of_gt hlt)

/-- A set whose counters are a numbering has an oldest way. -/
theorem Ranked.exists_oldest {s : CacheSet} (h : s.Ranked) :
    ∃ way < s.associativity, s.replRank way = s.associativity - 1 :=
  h.surjOn (Nat.sub_lt (Nat.zero_lt_of_lt s.victim_lt) Nat.one_pos)

/-- The lines play no part in the counters. -/
@[simp] theorem modifyLine_replRank (s : CacheSet) (way : ℕ) (f : CacheLine → CacheLine) (i : ℕ) :
    (s.modifyLine way f).replRank i = s.replRank i := by
  unfold replRank modifyLine
  by_cases h : i = way
  · simp [h]
  · simp [h]

/-- The lines play no part in the election. -/
theorem modifyLine_electNextVictim (s : CacheSet) (way : ℕ) (f : CacheLine → CacheLine) :
    (s.modifyLine way f).electNextVictim = s.electNextVictim := by
  have hscan : ∀ elect, scanWays elect (s.modifyLine way f).lines = scanWays elect s.lines := by
    intro elect
    unfold scanWays
    funext ways victim
    have hrank : ∀ i, ((s.modifyLine way f).lines i).replData = (s.lines i).replData :=
      s.modifyLine_replRank way f
    simp only [hrank]
  unfold electNextVictim
  rw [hscan]
  rfl

section Update

variable {s : CacheSet} {way : ℕ}

@[simp] theorem updateReplacementData_associativity (s : CacheSet) (way : ℕ) :
    (s.updateReplacementData way).associativity = s.associativity :=
  (s.updateReplacementData_sameLines way).associativity

@[simp] theorem updateReplacementData_policy (s : CacheSet) (way : ℕ) :
    (s.updateReplacementData way).policy = s.policy := (s.updateReplacementData_sameLines way).policy

/-- An update under the LRU policy ages the ways, resets the one used, and elects the victim of the loop.
-/
theorem updateReplacementData_lru (hp : s.policy = .lru) :
    (s.updateReplacementData way).lines = setReplData (s.lruLoop way).1 way 0 ∧
      (s.updateReplacementData way).nextVictim = (s.lruLoop way).2 := by
  unfold updateReplacementData
  split
  · exact ⟨rfl, rfl⟩
  · simp_all
  · simp_all

/-- What the LRU loop makes of a counter, given that of the accessed way. -/
def age (rid r : ℕ) : ℕ := if r < rid then r + 1 else r

/-- The loop does not age the accessed way. -/
theorem age_self (r : ℕ) : age r r = r := if_neg (Nat.lt_irrefl r)

/-- The LRU loop ages the ways. -/
theorem lruLoop_eq (s : CacheSet) (way : ℕ) :
    s.lruLoop way = replLoop (List.range s.associativity) age (fun r => r == s.associativity - 1) way
      (s.lines, s.nextVictim) := rfl

/-- The counters as the loop leaves them. -/
theorem lruLoop_replData {i : ℕ} (hi : i < s.associativity) :
    ((s.lruLoop way).1 i).replData =
      if s.replRank i < s.replRank way then s.replRank i + 1 else s.replRank i := by
  rw [lruLoop_eq, replLoop_replData _ List.nodup_range age_self, if_pos (List.mem_range.2 hi)]
  rfl

/-- An update under the LRU policy uses the way. -/
theorem replRank_updateReplacementData (hp : s.policy = .lru) {i : ℕ} (hi : i < s.associativity) :
    (s.updateReplacementData way).replRank i = touch s.replRank way i := by
  unfold replRank
  rw [(updateReplacementData_lru hp).1, setReplData_replData, lruLoop_replData hi]
  rfl

/-- The counters stay a numbering of the ways. -/
theorem Ranked.updateReplacementData (h : s.Ranked) (hp : s.policy = .lru) (hway : way < s.associativity) :
    (s.updateReplacementData way).Ranked := by
  unfold Ranked
  rw [updateReplacementData_associativity]
  apply (bijOn_touch h hway).congr
  intro i hi
  exact (replRank_updateReplacementData hp hi).symm

/-- The use of a way leaves a correct election behind: the way was not the oldest one, or no way
before it was the second oldest. -/
def KeepsElection (s : CacheSet) (way : ℕ) : Prop :=
  s.replRank way + 1 < s.associativity ∨ ∀ i < way, s.replRank i + 2 ≠ s.associativity

instance (s : CacheSet) (way : ℕ) : Decidable (s.KeepsElection way) :=
  inferInstanceAs (Decidable (_ ∨ _))

/-- The way that the update elects is the last one whose counter the loop leaves at the top. -/
theorem nextVictim_updateReplacementData (hp : s.policy = .lru) {oldest : ℕ} (hold : oldest < s.associativity)
    (htop : ((s.lruLoop way).1 oldest).replData = s.associativity - 1)
    (hlast : ∀ i < s.associativity, oldest < i → ((s.lruLoop way).1 i).replData ≠ s.associativity - 1) :
    (s.updateReplacementData way).nextVictim = oldest := by
  rw [(updateReplacementData_lru hp).2, lruLoop_eq, replLoop_victim _ List.nodup_range age_self]
  apply scanWays_range _ hold
  · exact beq_iff_eq.2 htop
  · intro i hi hlt
    exact beq_false_of_ne (hlast i hi hlt)

/-- The election made in the ageing pass is the one of the separate scan exactly when the use of
the way keeps it. -/
theorem Ranked.nextVictim_eq_iff (h : s.Ranked) (hp : s.policy = .lru) (hway : way < s.associativity) :
    (s.updateReplacementData way).nextVictim = (s.updateReplacementData way).electNextVictim.1 ↔
      s.KeepsElection way := by
  have hranked := h.updateReplacementData hp hway
  obtain ⟨oldest, hold, htop⟩ := hranked.exists_oldest
  rw [hranked.electNextVictim ((updateReplacementData_policy s way).trans hp) hold htop]
  rw [updateReplacementData_associativity] at hold htop
  rw [replRank_updateReplacementData hp hold] at htop
  have hwayn : s.replRank way < s.associativity := h.mapsTo hway
  -- a way other than the accessed one has the top counter in the loop only if it ends up oldest
  have hother : ∀ i < s.associativity, i ≠ way → ((s.lruLoop way).1 i).replData = s.associativity - 1 →
      i = oldest := by
    intro i hi hne htopi
    apply (bijOn_touch h hway).injOn hi hold
    rw [htop, touch_of_ne _ hne, ← lruLoop_replData hi]
    exact htopi
  have hself : ((s.lruLoop way).1 way).replData = s.replRank way := by
    rw [lruLoop_replData hway, if_neg (Nat.lt_irrefl _)]
  by_cases hone : oldest = way
  · -- a set of one way
    rw [hone, touch_self] at htop
    have hvictim : (s.updateReplacementData way).nextVictim = oldest := by
      have := (s.updateReplacementData way).victim_lt
      rw [updateReplacementData_associativity] at this
      omega
    exact iff_of_true hvictim (.inr fun i hi => by omega)
  · have htoploop : ((s.lruLoop way).1 oldest).replData = s.associativity - 1 := by
      rw [lruLoop_replData hold, ← touch_of_ne _ hone]
      exact htop
    rw [touch_of_ne _ hone] at htop
    by_cases hrank : s.replRank way + 1 < s.associativity
    · refine iff_of_true (nextVictim_updateReplacementData hp hold htoploop fun i hi hlt htopi => ?_) (.inl hrank)
      by_cases hne : i = way
      · rw [hne, hself] at htopi
        omega
      · exact absurd (hother i hi hne htopi) (Nat.ne_of_gt hlt)
    · have hsecond : s.replRank oldest + 2 = s.associativity := by
        have hne : s.replRank oldest ≠ s.replRank way := fun heq => hone (h.injOn hold hway heq)
        split at htop <;> omega
      by_cases hlt : oldest < way
      · -- the accessed way comes later and still has its old counter
        have hvictim : (s.updateReplacementData way).nextVictim = way := by
          apply nextVictim_updateReplacementData hp hway
          · rw [hself]
            omega
          · intro i hi hwi htopi
            have := hother i hi (Nat.ne_of_gt hwi) htopi
            omega
        refine iff_of_false (fun heq => hone (heq.symm.trans hvictim)) ?_
        rintro (hcond | hcond)
        · exact hrank hcond
        · exact hcond oldest hlt hsecond
      · refine iff_of_true (nextVictim_updateReplacementData hp hold htoploop fun i hi hoi htopi => ?_) (.inr ?_)
        · by_cases hne : i = way
          · omega
          · exact absurd (hother i hi hne htopi) (Nat.ne_of_gt hoi)
        · intro i hi heq
          have hin : i < s.associativity := Nat.lt_trans hi hway
          have := h.injOn hin hold (show s.replRank i = s.replRank oldest by omega)
          omega

end Update

end CacheSet

/-- One use of a set: the tag looked for, and the line that the caller leaves in the way handed
back, which is valid and has that tag. -/
structure LineAccess where
  tag : ℕ
  line : CacheLine
  tag_eq : line.tag = tag
  valid : line.Valid

/-- A set with the ways used so far, the last one first. -/
structure UsedSet where
  cacheSet : CacheSet
  history : List ℕ

namespace UsedSet

open CacheSet

/-- A set just built with the LRU policy. -/
def start (lineSize assoc : ℕ) (h : 0 < assoc) : UsedSet := ⟨.init lineSize assoc .lru h, []⟩

/-- The way that `accessSet` hands back for the tag. -/
def accessedWay (s : CacheSet) (tag : ℕ) : ℕ := (s.locateLineInSet tag).getD s.nextVictim

/-- One call of `accessSet` and what the caller does with the line. -/
def access (a : LineAccess) : EStateM PUnit UsedSet PUnit := do
  let u ← get
  match u.cacheSet.accessSet a.tag with
  | none => throw ⟨⟩
  | some ((_, way), s') => set (UsedSet.mk (s'.modifyLine way fun _ => a.line) (way :: u.history))

/-- What the LRU policy promises of a set: the counters number the ways, the next victim is the
one the separate scan elects, and a miss hands back the way whose last use is the longest ago,
ways never used first and in the order of their indices. -/
structure FollowsLru (u : UsedSet) : Prop where
  ranked : u.cacheSet.Ranked
  elected : u.cacheSet.nextVictim = u.cacheSet.electNextVictim.1
  oldest : ∀ tag way s', u.cacheSet.accessSet tag = some ((false, way), s') →
    ∀ i < u.cacheSet.associativity, i ≠ way →
      UsedBefore (fun i => u.cacheSet.associativity - i - 1) u.history way i

/-- The counters are the ranks that the history gives to the ways. -/
structure Tracks (u : UsedSet) : Prop where
  policy : u.cacheSet.policy = .lru
  used : ∀ way ∈ u.history, way ∈ Set.Iio u.cacheSet.associativity
  rank : ∀ i ∈ Set.Iio u.cacheSet.associativity,
    u.cacheSet.replRank i = ranksAfter (fun i => u.cacheSet.associativity - i - 1) u.history i

/-- The first ranks number the ways, the first way highest. -/
theorem bijOn_first (n : ℕ) : Set.BijOn (fun i => n - i - 1) (Set.Iio n) (Set.Iio n) := by
  refine ⟨fun i (hi : i < n) => ?_, fun i (hi : i < n) j (hj : j < n) heq => ?_, fun r (hr : r < n) => ?_⟩
  · change n - i - 1 < n
    omega
  · change n - i - 1 = n - j - 1 at heq
    omega
  · refine ⟨n - r - 1, ?_, ?_⟩
    · change n - r - 1 < n
      omega
    · change n - (n - r - 1) - 1 = r
      omega

/-- A set that follows its history has its counters numbered. -/
theorem Tracks.ranked {u : UsedSet} (h : u.Tracks) : u.cacheSet.Ranked :=
  (bijOn_ranksAfter (bijOn_first _) h.used).congr fun i hi => (h.rank i hi).symm

/-- The next victim of a correct election is the way used the longest ago. -/
theorem Tracks.usedBefore {u : UsedSet} (h : u.Tracks) (helect : u.cacheSet.nextVictim = u.cacheSet.electNextVictim.1)
    {i : ℕ} (hi : i < u.cacheSet.associativity) (hne : i ≠ u.cacheSet.nextVictim) :
    UsedBefore (fun i => u.cacheSet.associativity - i - 1) u.history u.cacheSet.nextVictim i := by
  obtain ⟨oldest, hold, htop⟩ := h.ranked.exists_oldest
  have hvictim := helect.trans (h.ranked.electNextVictim h.policy hold htop)
  rw [hvictim] at hne ⊢
  apply (ranksAfter_lt_iff (bijOn_first _) h.used hold hi).1
  rw [← h.rank oldest hold, ← h.rank i hi]
  have hlt : u.cacheSet.replRank i < u.cacheSet.associativity := h.ranked.mapsTo hi
  have hneq : u.cacheSet.replRank i ≠ u.cacheSet.replRank oldest := fun heq => hne (h.ranked.injOn hi hold heq)
  omega

/-- A correct election in a set that follows its history is all that the policy promises. -/
theorem Tracks.followsLru_iff {u : UsedSet} (h : u.Tracks) :
    u.FollowsLru ↔ u.cacheSet.nextVictim = u.cacheSet.electNextVictim.1 := by
  refine ⟨FollowsLru.elected, fun helect => ⟨h.ranked, helect, ?_⟩⟩
  intro tag way s' haccess i hi hne
  have hway : way = u.cacheSet.nextVictim := by
    unfold CacheSet.accessSet at haccess
    rw [h.policy, if_neg (by decide)] at haccess
    cases hl : u.cacheSet.locateLineInSet tag with
    | some w =>
      rw [hl] at haccess
      cases haccess
    | none =>
      rw [hl] at haccess
      cases haccess
      rfl
  rw [hway] at hne ⊢
  exact h.usedBefore helect hi hne

/-- One access updates the replacement data of its way and then sets its line. -/
theorem access_eq {u : UsedSet} (hp : u.cacheSet.policy ≠ .fifo) (a : LineAccess) :
    access a u = .ok ⟨⟩ ⟨(u.cacheSet.updateReplacementData (accessedWay u.cacheSet a.tag)).modifyLine
      (accessedWay u.cacheSet a.tag) fun _ => a.line, accessedWay u.cacheSet a.tag :: u.history⟩ := by
  have haccess : u.cacheSet.accessSet a.tag = some (((u.cacheSet.locateLineInSet a.tag).isSome,
      accessedWay u.cacheSet a.tag), u.cacheSet.updateReplacementData (accessedWay u.cacheSet a.tag)) := by
    unfold CacheSet.accessSet accessedWay
    rw [if_neg hp]
    cases u.cacheSet.locateLineInSet a.tag <;> rfl
  unfold access
  refine (bind_of_ok (show (get : EStateM PUnit UsedSet UsedSet) u = .ok u u from rfl)).trans ?_
  rw [haccess]
  rfl

/-- The way handed back is one of the set's ways. -/
theorem accessedWay_lt (s : CacheSet) (tag : ℕ) : accessedWay s tag < s.associativity := by
  unfold accessedWay
  cases h : s.locateLineInSet tag with
  | none => exact s.victim_lt
  | some way => exact (CacheSet.findWay_eq_some h).1

/-- The policy lets an access hand back a way. -/
theorem Tracks.policy_ne {u : UsedSet} (h : u.Tracks) : u.cacheSet.policy ≠ .fifo := by
  rw [h.policy]
  exact nofun

/-- An access to a set that follows its history leaves such a set. -/
theorem Tracks.of_access {u v : UsedSet} (h : u.Tracks) {a : LineAccess} (hrun : access a u = .ok ⟨⟩ v) :
    v.Tracks := by
  rw [access_eq h.policy_ne] at hrun
  cases hrun
  have hway := accessedWay_lt u.cacheSet a.tag
  refine ⟨(updateReplacementData_policy _ _).trans h.policy, ?_, ?_⟩
  · intro way hmem
    change way < (u.cacheSet.updateReplacementData _).associativity
    rw [updateReplacementData_associativity]
    cases hmem with
    | head => exact hway
    | tail _ hmem => exact h.used way hmem
  · intro i hi
    dsimp only at hi ⊢
    rw [modifyLine_associativity, updateReplacementData_associativity] at hi ⊢
    rw [modifyLine_replRank, replRank_updateReplacementData h.policy hi]
    change touch _ _ i = touch (ranksAfter _ u.history) _ i
    simp only [touch, h.rank i hi, h.rank _ hway]

/-- An access leaves a correct election behind exactly when it keeps it. -/
theorem Tracks.elected_iff {u v : UsedSet} (h : u.Tracks) {a : LineAccess} (hrun : UsedSet.access a u = .ok ⟨⟩ v) :
    v.cacheSet.nextVictim = v.cacheSet.electNextVictim.1 ↔
      u.cacheSet.KeepsElection (accessedWay u.cacheSet a.tag) := by
  rw [access_eq h.policy_ne] at hrun
  cases hrun
  rw [modifyLine_electNextVictim]
  exact h.ranked.nextVictim_eq_iff h.policy (accessedWay_lt u.cacheSet a.tag)

/-- A set just built follows the empty history, and its first way is the next victim. -/
theorem start_tracks (lineSize assoc : ℕ) (h : 0 < assoc) : (start lineSize assoc h).Tracks :=
  ⟨rfl, fun _ hmem => absurd hmem List.not_mem_nil, fun _ _ => rfl⟩

/-- The election of a set just built is correct. -/
theorem start_elected (lineSize assoc : ℕ) (h : 0 < assoc) :
    (start lineSize assoc h).cacheSet.nextVictim = (start lineSize assoc h).cacheSet.electNextVictim.1 :=
  ((start_tracks lineSize assoc h).ranked.electNextVictim rfl h rfl).symm

/-- In every state that a run of accesses reaches, the set does what the LRU policy promises. -/
def RunFollowsLru (u : UsedSet) (accesses : List LineAccess) : Prop :=
  ∀ done rest, accesses = done ++ rest → ∃ v, done.forM access u = .ok ⟨⟩ v ∧ v.FollowsLru

/-- The accesses of a run that keep the election. -/
def Keeping (u : UsedSet) (accesses : List LineAccess) : Prop :=
  Along access (fun u a => u.cacheSet.KeepsElection (accessedWay u.cacheSet a.tag)) u accesses

/-- From a set that follows its history, a run does what the policy promises exactly when the
election is correct at its beginning and every access keeps it. -/
theorem Tracks.runFollowsLru_iff {u : UsedSet} (h : u.Tracks) (accesses : List LineAccess) :
    RunFollowsLru u accesses ↔
      u.cacheSet.nextVictim = u.cacheSet.electNextVictim.1 ∧ Keeping u accesses := by
  induction accesses generalizing u with
  | nil =>
    constructor
    · intro hrun
      obtain ⟨v, hv, hfollows⟩ := hrun [] [] rfl
      cases hv
      exact ⟨hfollows.elected, trivial⟩
    · intro hkeep done rest hsplit
      obtain ⟨rfl, -⟩ := List.append_eq_nil_iff.1 hsplit.symm
      exact ⟨u, rfl, h.followsLru_iff.2 hkeep.1⟩
  | cons a accesses ih =>
    have haccess := access_eq h.policy_ne a
    generalize hv : UsedSet.mk _ _ = v at haccess
    have htracks := h.of_access haccess
    have hforM : ∀ done, (a :: done).forM access u = done.forM access v := fun done =>
      bind_of_ok haccess
    constructor
    · intro hrun
      obtain ⟨w, hw, hfollows⟩ := hrun [] (a :: accesses) rfl
      cases hw
      have hrest : RunFollowsLru v accesses := by
        intro done rest hsplit
        rw [← hforM]
        exact hrun (a :: done) rest (congrArg (a :: ·) hsplit)
      obtain ⟨helect, hkeep⟩ := (ih htracks).1 hrest
      refine ⟨hfollows.elected, (h.elected_iff haccess).1 helect, fun v' hv' => ?_⟩
      rw [haccess] at hv'
      cases hv'
      exact hkeep
    · intro ⟨helect, hfirst, hkeep⟩ done rest hsplit
      cases done with
      | nil => exact ⟨u, rfl, h.followsLru_iff.2 helect⟩
      | cons b done =>
        obtain ⟨rfl, htail⟩ := List.cons.inj hsplit
        rw [hforM]
        exact (ih htracks).2 ⟨(h.elected_iff haccess).2 hfirst, hkeep v haccess⟩ done rest htail

/-- A run on a set just built does what the LRU policy promises exactly when each of its accesses
keeps the election: the way used is not the oldest one, or no way of a lower index is the second
oldest. -/
theorem runFollowsLru_start_iff (lineSize assoc : ℕ) (h : 0 < assoc) (accesses : List LineAccess) :
    RunFollowsLru (start lineSize assoc h) accesses ↔ Keeping (start lineSize assoc h) accesses :=
  ((start_tracks lineSize assoc h).runFollowsLru_iff accesses).trans
    (and_iff_right (start_elected lineSize assoc h))

/-- An access that leaves a shared line of the tag. -/
def ofTag (tag : ℕ) : LineAccess := ⟨tag, ⟨0, tag, .shared, 0⟩, rfl, nofun⟩

/-- Two fills and a hit in a set of three ways keep the election. -/
theorem runFollowsLru_fills_hit :
    RunFollowsLru (start 64 3 (by decide)) [ofTag 1, ofTag 2, ofTag 1] := by
  apply (runFollowsLru_start_iff 64 3 (by decide) _).2
  apply Along.cons (by decide +kernel)
  apply Along.cons (by decide +kernel)
  exact Along.cons (by decide +kernel) trivial

/-- Two ways filled one after the other. The next miss hands back the way just filled instead of
the one used before it. -/
theorem not_runFollowsLru_two_fills :
    ¬ RunFollowsLru (start 64 2 (by decide)) [ofTag 1, ofTag 2] ∧
      ∃ u, [ofTag 1, ofTag 2].forM access (start 64 2 (by decide)) = .ok ⟨⟩ u ∧
        (u.cacheSet.accessSet 3).map Prod.fst = some (false, 1) ∧
        UsedBefore (fun i => 2 - i - 1) u.history 0 1 := by
  constructor
  · intro hrun
    obtain ⟨-, hkeep⟩ := ((start_tracks 64 2 (by decide)).runFollowsLru_iff _).1 hrun
    have hsecond := (hkeep.2 _ (access_eq (by decide) _)).1
    exact absurd hsecond (by decide)
  · exact ⟨_, eq_ok_endState (by decide +kernel), by decide +kernel, by decide +kernel⟩

end UsedSet

end Vpsim.Memory
