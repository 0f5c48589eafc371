import Vpsim.Memory.LruReplacement

/-!
# The MRU policy

The victim of the MRU policy is the next free way while the set fills up. `CountUntilRepl` tells
how far the set has filled, and every access counts, hits included. Later the victim is elected in
the pass that renumbers the counters, before the accessed way gets the highest one. The election
then finds a way only when the way accessed is the one accessed just before. Otherwise the last
victim stands, however long ago it was used.
-/

namespace Vpsim.Memory

open Vpsim.Lib

namespace CacheSet

section MruUpdate

variable {s : CacheSet} {way : ℕ}

/-- What the MRU loop makes of a counter, given that of the accessed way. -/
def lower (rid r : ℕ) : ℕ := if rid < r then r - 1 else r

/-- The loop does not lower the accessed way. -/
theorem lower_self (r : ℕ) : lower r r = r := if_neg (Nat.lt_irrefl r)

/-- Which counters the MRU loop elects. -/
def electsMru (s : CacheSet) (r : ℕ) : Bool :=
  r == s.associativity - 1 && decide (s.associativity - 1 ≤ s.countUntilRepl)

/-- The MRU loop lowers the ways. -/
theorem mruLoop_eq (s : CacheSet) (way : ℕ) :
    s.mruLoop way = replLoop (List.range s.associativity) lower s.electsMru way (s.lines, s.nextVictim) := rfl

/-- The MRU loop lowers the counters above that of the way used. -/
theorem mruLoop_replData {i : ℕ} (hi : i < s.associativity) :
    ((s.mruLoop way).1 i).replData = lower (s.replRank way) (s.replRank i) := by
  rw [mruLoop_eq, replLoop_replData _ List.nodup_range lower_self, if_pos (List.mem_range.2 hi)]
  rfl

/-- An update under the MRU policy sets the counter of the way used to the highest, and moves the victim
on while the set fills up. -/
theorem updateReplacementData_mru (hp : s.policy = .mru) :
    (s.updateReplacementData way).lines = setReplData (s.mruLoop way).1 way (s.associativity - 1) ∧
      (s.updateReplacementData way).nextVictim = (if s.countUntilRepl + 1 < s.associativity
        then (s.mruLoop way).2 + 1 else (s.mruLoop way).2) ∧
      (s.updateReplacementData way).countUntilRepl = (if s.countUntilRepl + 1 < s.associativity
        then s.countUntilRepl + 1 else s.countUntilRepl) := by
  unfold updateReplacementData
  split
  · simp_all
  · exact ⟨rfl, rfl, rfl⟩
  · simp_all

/-- After an update under the MRU policy the way used has the highest counter, and those above it are
lowered. -/
theorem replRank_updateReplacementData_mru (hp : s.policy = .mru) {i : ℕ} (hi : i < s.associativity) :
    (s.updateReplacementData way).replRank i =
      if i = way then s.associativity - 1 else lower (s.replRank way) (s.replRank i) := by
  unfold replRank
  rw [(updateReplacementData_mru hp).1, setReplData_replData, mruLoop_replData hi]
  rfl

/-- The way with the highest counter, and no other counter is out of range. -/
structure Newest (s : CacheSet) (top : ℕ) : Prop where
  lt : ∀ i < s.associativity, s.replRank i < s.associativity
  top_iff : ∀ i < s.associativity, s.replRank i + 1 = s.associativity ↔ i = top

/-- The loop leaves the highest counter to no way but the accessed one. -/
theorem Newest.lower_lt {top : ℕ} (h : s.Newest top) (hway : way < s.associativity) {i : ℕ}
    (hi : i < s.associativity) (hne : i ≠ way) :
    lower (s.replRank way) (s.replRank i) + 1 < s.associativity := by
  unfold lower
  have hlt := h.lt i hi
  by_cases hgt : s.replRank way < s.replRank i
  · rw [if_pos hgt]
    omega
  · -- a counter not above that of the accessed way is not the highest one
    rw [if_neg hgt]
    have hwaylt := h.lt way hway
    have hnot : s.replRank i + 1 ≠ s.associativity := by
      intro hitop
      have hwaytop : s.replRank way + 1 = s.associativity := by omega
      exact hne (((h.top_iff i hi).1 hitop).trans ((h.top_iff way hway).1 hwaytop).symm)
    omega

/-- The way accessed has the highest counter afterwards. -/
theorem Newest.updateReplacementData {top : ℕ} (h : s.Newest top) (hp : s.policy = .mru)
    (hway : way < s.associativity) : (s.updateReplacementData way).Newest way := by
  have hself : (s.updateReplacementData way).replRank way + 1 = s.associativity := by
    rw [replRank_updateReplacementData_mru hp hway, if_pos rfl]
    omega
  have hother : ∀ i < s.associativity, i ≠ way →
      (s.updateReplacementData way).replRank i + 1 < s.associativity := by
    intro i hi hne
    rw [replRank_updateReplacementData_mru hp hi, if_neg hne]
    exact h.lower_lt hway hi hne
  constructor
  · intro i hi
    rw [updateReplacementData_associativity] at hi ⊢
    by_cases hne : i = way
    · rw [hne]
      omega
    · have := hother i hi hne
      omega
  · intro i hi
    rw [updateReplacementData_associativity] at hi ⊢
    by_cases hne : i = way
    · exact iff_of_true (hne ▸ hself) hne
    · exact iff_of_false (Nat.ne_of_lt (hother i hi hne)) hne

/-- While the set fills up the loop elects no way. -/
theorem mruLoop_victim_filling (hcount : s.countUntilRepl + 1 < s.associativity) :
    (s.mruLoop way).2 = s.nextVictim := by
  rw [mruLoop_eq, replLoop_victim_eq]
  intro r
  unfold electsMru
  rw [decide_eq_false (by omega), Bool.and_false]

/-- Once the set counts as full the loop elects the accessed way if it is the newest already, and
no way otherwise. -/
theorem Newest.mruLoop_victim {top : ℕ} (h : s.Newest top)
    (hcount : s.associativity ≤ s.countUntilRepl + 1) (hway : way < s.associativity) :
    (s.mruLoop way).2 = if way = top then way else s.nextVictim := by
  have helects : ∀ i < s.associativity, s.electsMru ((s.mruLoop way).1 i).replData =
      decide (lower (s.replRank way) (s.replRank i) + 1 = s.associativity) := by
    intro i hi
    rw [mruLoop_replData hi]
    unfold electsMru
    rw [decide_eq_true (by omega), Bool.and_true, beq_eq_decide]
    apply decide_eq_decide.2
    omega
  have hother : ∀ i < s.associativity, i ≠ way → s.electsMru ((s.mruLoop way).1 i).replData = false := by
    intro i hi hne
    rw [helects i hi]
    exact decide_eq_false (Nat.ne_of_lt (h.lower_lt hway hi hne))
  have hself := helects way hway
  rw [lower_self] at hself
  rw [mruLoop_eq, replLoop_victim _ List.nodup_range lower_self, ← mruLoop_eq]
  by_cases htop : way = top
  · rw [if_pos htop]
    apply scanWays_range _ hway
    · exact hself.trans (decide_eq_true ((h.top_iff way hway).2 htop))
    · intro i hi hlt
      exact hother i hi (Nat.ne_of_gt hlt)
  · rw [if_neg htop]
    apply scanWays_eq
    intro i hi
    by_cases hne : i = way
    · rw [hne, hself]
      exact decide_eq_false (fun heq => htop ((h.top_iff way hway).1 heq))
    · exact hother i (List.mem_range.1 hi) hne

end MruUpdate

end CacheSet

/-- The way of the last access that followed an access to the same way, when the set of `assoc`
ways counted as full. A history lists the ways accessed, the last one first. -/
def lastRepeated (assoc : ℕ) : List ℕ → Option ℕ
  | way :: before :: history =>
    if way = before ∧ assoc ≤ history.length + 2 then some way
    else lastRepeated assoc (before :: history)
  | _ => none

/-- No access of a set that fills up counts as a repetition. -/
theorem lastRepeated_eq_none {assoc : ℕ} {history : List ℕ} (h : history.length < assoc) :
    lastRepeated assoc history = none := by
  induction history with
  | nil => rfl
  | cons way history ih =>
    cases history with
    | nil => rfl
    | cons before history =>
      change (if way = before ∧ assoc ≤ history.length + 2 then some way else _) = none
      rw [List.length_cons, List.length_cons] at h
      rw [if_neg fun hrep => absurd hrep.2 (by omega)]
      apply ih
      rw [List.length_cons]
      omega

/-- A repeated way is one of the history. -/
theorem mem_of_lastRepeated {assoc : ℕ} {history : List ℕ} {way : ℕ}
    (h : lastRepeated assoc history = some way) : way ∈ history := by
  induction history with
  | nil => cases h
  | cons last history ih =>
    cases history with
    | nil => cases h
    | cons before history =>
      change (if last = before ∧ assoc ≤ history.length + 2 then some last else _) = some way at h
      split at h
      · cases h
        exact List.mem_cons_self
      · exact List.mem_cons_of_mem last (ih h)

namespace UsedSet

open CacheSet

/-- A set just built with the MRU policy. -/
def startMru (lineSize assoc : ℕ) (h : 0 < assoc) : UsedSet := ⟨.init lineSize assoc .mru h, []⟩

/-- Some way has never been filled. The lines of a set just built are invalid, and a line that was
installed stays valid. -/
def Filling (s : CacheSet) : Prop := ∃ i < s.associativity, ¬ (s.line i).Valid

instance (s : CacheSet) : Decidable (Filling s) :=
  inferInstanceAs (Decidable (∃ i < s.associativity, ¬ (s.line i).Valid))

/-- What the MRU policy promises of an access: a miss fills a way that was never filled while there
is one, and afterwards the way accessed last. -/
def FollowsMru (u : UsedSet) (a : LineAccess) : Prop :=
  ∀ way s', u.cacheSet.accessSet a.tag = some ((false, way), s') →
    if Filling u.cacheSet then ¬ (u.cacheSet.line way).Valid else u.history.head? = some way

/-- The victim that stands at a miss is a good one. While the set fills up, no access since the set
counted as full has repeated the way before it, and the last way is still to be filled. In a full
set the way accessed last is the one of the last such repetition, or the last way of the set if
there was none. -/
def VictimStands (u : UsedSet) (a : LineAccess) : Prop :=
  u.cacheSet.locateLineInSet a.tag = none →
    if Filling u.cacheSet then
      lastRepeated u.cacheSet.associativity u.history = none ∧
        ¬ (u.cacheSet.line (u.cacheSet.associativity - 1)).Valid
    else
      u.history.head? =
        some ((lastRepeated u.cacheSet.associativity u.history).getD (u.cacheSet.associativity - 1))

instance (u : UsedSet) (a : LineAccess) : Decidable (VictimStands u a) :=
  inferInstanceAs (Decidable (_ → _))

/-- What the counters and the victim of a set with the MRU policy say about its history. -/
structure TracksMru (u : UsedSet) : Prop where
  policy : u.cacheSet.policy = .mru
  used : ∀ way ∈ u.history, way < u.cacheSet.associativity ∧ way < u.history.length
  valid_iff : ∀ i < u.cacheSet.associativity, (u.cacheSet.line i).Valid ↔ i ∈ u.history
  newest : u.cacheSet.Newest (u.history.head?.getD 0)
  count : u.cacheSet.countUntilRepl = min u.history.length (u.cacheSet.associativity - 1)
  victim : u.cacheSet.nextVictim = (lastRepeated u.cacheSet.associativity u.history).getD
    (min u.history.length (u.cacheSet.associativity - 1))

/-- The policy lets an access hand back a way. -/
theorem TracksMru.policy_ne {u : UsedSet} (h : u.TracksMru) : u.cacheSet.policy ≠ .fifo := by
  rw [h.policy]
  exact nofun

/-- A miss hands back the next victim. -/
theorem TracksMru.miss_iff {u : UsedSet} (h : u.TracksMru) (tag way : ℕ) :
    (∃ s', u.cacheSet.accessSet tag = some ((false, way), s')) ↔
      u.cacheSet.locateLineInSet tag = none ∧ way = u.cacheSet.nextVictim := by
  unfold CacheSet.accessSet
  rw [if_neg h.policy_ne]
  cases u.cacheSet.locateLineInSet tag with
  | some w =>
    apply iff_of_false
    · intro ⟨s', hmiss⟩
      cases hmiss
    · intro ⟨hnone, _⟩
      cases hnone
  | none =>
    constructor
    · intro ⟨s', hmiss⟩
      cases hmiss
      exact ⟨rfl, rfl⟩
    · intro ⟨_, hway⟩
      exact ⟨_, by rw [hway]⟩

/-- A set with fewer accesses than ways is filling up. -/
theorem TracksMru.filling {u : UsedSet} (h : u.TracksMru) (hlt : u.history.length < u.cacheSet.associativity) :
    ¬ (u.cacheSet.line u.history.length).Valid := by
  rw [h.valid_iff _ hlt]
  intro hmem
  exact Nat.lt_irrefl _ (h.used _ hmem).2

/-- The last way of a set with fewer accesses than ways is still to be filled. -/
theorem TracksMru.last_filling {u : UsedSet} (h : u.TracksMru)
    (hlt : u.history.length < u.cacheSet.associativity) :
    ¬ (u.cacheSet.line (u.cacheSet.associativity - 1)).Valid := by
  rw [h.valid_iff _ (by omega)]
  intro hmem
  have := (h.used _ hmem).2
  omega

/-- A miss keeps the promise of the MRU policy exactly when the victim that stands is a good one. -/
theorem TracksMru.followsMru_iff {u : UsedSet} (h : u.TracksMru) (a : LineAccess) :
    FollowsMru u a ↔ VictimStands u a := by
  have hvictim : FollowsMru u a ↔ (u.cacheSet.locateLineInSet a.tag = none →
      if Filling u.cacheSet then ¬ (u.cacheSet.line u.cacheSet.nextVictim).Valid
      else u.history.head? = some u.cacheSet.nextVictim) := by
    constructor
    · intro hfollows hmiss
      obtain ⟨s', haccess⟩ := (h.miss_iff a.tag u.cacheSet.nextVictim).2 ⟨hmiss, rfl⟩
      exact hfollows _ s' haccess
    · intro hgood way s' haccess
      obtain ⟨hmiss, rfl⟩ := (h.miss_iff a.tag way).1 ⟨s', haccess⟩
      exact hgood hmiss
  rw [hvictim]
  apply imp_congr_right
  intro _
  have hpos := u.cacheSet.victim_lt
  by_cases hfill : Filling u.cacheSet
  · rw [if_pos hfill, if_pos hfill, h.valid_iff _ hpos, h.victim]
    by_cases hlt : u.history.length < u.cacheSet.associativity
    · apply iff_of_true
      · rw [lastRepeated_eq_none hlt, ← h.valid_iff _ (by change min _ _ < _; omega)]
        have heq : (none : Option ℕ).getD (min u.history.length (u.cacheSet.associativity - 1)) =
            u.history.length := by
          change min _ _ = _
          omega
        rw [heq]
        exact h.filling hlt
      · exact ⟨lastRepeated_eq_none hlt, h.last_filling hlt⟩
    · have hmin : min u.history.length (u.cacheSet.associativity - 1) = u.cacheSet.associativity - 1 := by
        omega
      rw [hmin, h.valid_iff _ (by omega)]
      cases hrep : lastRepeated u.cacheSet.associativity u.history with
      | none => exact (and_iff_right rfl).symm
      | some way => exact iff_of_false (fun hnot => hnot (mem_of_lastRepeated hrep)) (fun hboth => nomatch hboth.1)
  · rw [if_neg hfill, if_neg hfill, h.victim]
    have hge : u.cacheSet.associativity ≤ u.history.length := by
      apply Nat.le_of_not_lt
      intro hlt
      exact hfill ⟨_, hlt, h.filling hlt⟩
    have hmin : min u.history.length (u.cacheSet.associativity - 1) = u.cacheSet.associativity - 1 := by
      omega
    rw [hmin]

/-- A set just built with the MRU policy has no history, and its first way is the next victim. -/
theorem startMru_tracks (lineSize assoc : ℕ) (h : 0 < assoc) : (startMru lineSize assoc h).TracksMru where
  policy := rfl
  used _ hmem := absurd hmem List.not_mem_nil
  valid_iff _ _ := iff_of_false (fun hvalid => hvalid rfl) List.not_mem_nil
  newest := by
    constructor
    · intro i hi
      change assoc - i - 1 < assoc
      omega
    · intro i hi
      change assoc - i - 1 + 1 = assoc ↔ i = 0
      change i < assoc at hi
      omega
  count := (Nat.zero_min _).symm
  victim := (Nat.zero_min _).symm

/-- The way that an access hands back has been used before, or its index is the number of accesses
so far at most. -/
theorem TracksMru.accessedWay_le {u : UsedSet} (h : u.TracksMru) (tag : ℕ) :
    accessedWay u.cacheSet tag ≤ u.history.length := by
  unfold accessedWay
  cases hfound : u.cacheSet.locateLineInSet tag with
  | some way =>
    obtain ⟨hway, -, hvalid⟩ := findWay_eq_some hfound
    exact Nat.le_of_lt (h.used way ((h.valid_iff way hway).1 hvalid)).2
  | none =>
    change u.cacheSet.nextVictim ≤ _
    rw [h.victim]
    cases hrep : lastRepeated u.cacheSet.associativity u.history with
    | some way => exact Nat.le_of_lt (h.used way (mem_of_lastRepeated hrep)).2
    | none => exact Nat.min_le_left _ _

/-- One more access of a set that counted as full makes its way the victim when it repeats the last one.
-/
theorem lastRepeated_cons_of_full {assoc way fallback : ℕ} {history : List ℕ}
    (hfull : assoc ≤ history.length + 1) (hfallback : fallback < assoc) :
    (lastRepeated assoc (way :: history)).getD fallback =
      if way = history.head?.getD 0 then way else (lastRepeated assoc history).getD fallback := by
  cases history with
  | nil =>
    -- a set of one way
    have hone : assoc ≤ 1 := hfull
    change fallback = if way = 0 then way else fallback
    split <;> omega
  | cons before history =>
    have hfull : assoc ≤ history.length + 2 := hfull
    change Option.getD (if way = before ∧ assoc ≤ history.length + 2 then some way else _) fallback =
      if way = before then way else _
    by_cases hsame : way = before
    · rw [if_pos ⟨hsame, hfull⟩, if_pos hsame]
      rfl
    · rw [if_neg fun hrep => hsame hrep.1, if_neg hsame]

/-- The victim follows the history through an update. -/
theorem TracksMru.victim_update {u : UsedSet} (h : u.TracksMru) {way : ℕ} (hway : way < u.cacheSet.associativity) :
    (u.cacheSet.updateReplacementData way).nextVictim =
      (lastRepeated u.cacheSet.associativity (way :: u.history)).getD
        (min (u.history.length + 1) (u.cacheSet.associativity - 1)) := by
  rw [(updateReplacementData_mru h.policy).2.1]
  have hcount := h.count
  by_cases hfilling : u.history.length + 1 < u.cacheSet.associativity
  · have hnone : lastRepeated u.cacheSet.associativity u.history = none :=
      lastRepeated_eq_none (Nat.lt_of_succ_lt hfilling)
    have hnone' : lastRepeated u.cacheSet.associativity (way :: u.history) = none := lastRepeated_eq_none hfilling
    have hsmall : u.cacheSet.countUntilRepl + 1 < u.cacheSet.associativity := by omega
    rw [if_pos hsmall, mruLoop_victim_filling hsmall, h.victim, hnone, hnone']
    change min _ _ + 1 = min _ _
    omega
  · have hlast : min u.history.length (u.cacheSet.associativity - 1) = u.cacheSet.associativity - 1 := by
      omega
    have hlast' : min (u.history.length + 1) (u.cacheSet.associativity - 1) = u.cacheSet.associativity - 1 := by
      omega
    have hvictim := h.victim
    rw [hlast] at hvictim hcount
    rw [if_neg (by omega), h.newest.mruLoop_victim (by omega) hway, hlast', hvictim,
      lastRepeated_cons_of_full (by omega) (by omega)]

/-- The count follows the history through an update. -/
theorem TracksMru.count_update {u : UsedSet} (h : u.TracksMru) (way : ℕ) :
    (u.cacheSet.updateReplacementData way).countUntilRepl =
      min (u.history.length + 1) (u.cacheSet.associativity - 1) := by
  rw [(updateReplacementData_mru h.policy).2.2, h.count]
  split <;> omega

/-- An access to a set that follows its history leaves such a set. -/
theorem TracksMru.of_access {u v : UsedSet} (h : u.TracksMru) {a : LineAccess}
    (hrun : access a u = .ok ⟨⟩ v) : v.TracksMru := by
  rw [access_eq h.policy_ne] at hrun
  have hle := h.accessedWay_le a.tag
  have hway := accessedWay_lt u.cacheSet a.tag
  generalize accessedWay u.cacheSet a.tag = way at hrun hle hway
  cases hrun
  have hassoc := updateReplacementData_associativity u.cacheSet way
  constructor
  · exact (updateReplacementData_policy _ _).trans h.policy
  · intro i hmem
    change i < (u.cacheSet.updateReplacementData way).associativity ∧ i < u.history.length + 1
    rw [hassoc]
    cases hmem with
    | head => exact ⟨hway, Nat.lt_succ_of_le hle⟩
    | tail _ hmem => exact ⟨(h.used i hmem).1, Nat.lt_succ_of_lt (h.used i hmem).2⟩
  · intro i hi
    dsimp only at hi ⊢
    rw [modifyLine_associativity, hassoc] at hi
    rw [List.mem_cons, ← h.valid_iff i hi]
    by_cases hne : i = way
    · rw [hne, modifyLine_line]
      exact iff_of_true a.valid (.inl rfl)
    · rw [modifyLine_line_of_ne _ _ hne, (u.cacheSet.updateReplacementData_sameLines way).line i]
      exact (or_iff_right hne).symm
  · have hnewest := h.newest.updateReplacementData h.policy hway
    constructor
    · intro i hi
      rw [modifyLine_replRank]
      exact hnewest.lt i hi
    · intro i hi
      rw [modifyLine_replRank]
      exact hnewest.top_iff i hi
  · change (u.cacheSet.updateReplacementData way).countUntilRepl =
      min (u.history.length + 1) ((u.cacheSet.updateReplacementData way).associativity - 1)
    rw [hassoc]
    exact h.count_update way
  · change (u.cacheSet.updateReplacementData way).nextVictim =
      (lastRepeated (u.cacheSet.updateReplacementData way).associativity (way :: u.history)).getD
        (min (u.history.length + 1) ((u.cacheSet.updateReplacementData way).associativity - 1))
    rw [hassoc]
    exact h.victim_update hway

/-- A run on a set with the MRU policy comes to its end. -/
theorem TracksMru.run {u : UsedSet} (h : u.TracksMru) (accesses : List LineAccess) :
    ∃ v, accesses.forM access u = .ok ⟨⟩ v := by
  induction accesses generalizing u with
  | nil => exact ⟨u, rfl⟩
  | cons a accesses ih =>
    have haccess := access_eq h.policy_ne a
    obtain ⟨v, hv⟩ := ih (h.of_access haccess)
    exact ⟨v, (bind_of_ok haccess).trans hv⟩

/-- A run on a set just built comes to its end, and each of its misses does what the MRU policy
promises exactly when a good victim stands at each of them. -/
theorem followsMru_startMru_iff (lineSize assoc : ℕ) (h : 0 < assoc) (accesses : List LineAccess) :
    (∃ v, accesses.forM access (startMru lineSize assoc h) = .ok ⟨⟩ v) ∧
      (Along access FollowsMru (startMru lineSize assoc h) accesses ↔
        Along access VictimStands (startMru lineSize assoc h) accesses) := by
  have htracks := startMru_tracks lineSize assoc h
  refine ⟨htracks.run accesses, fun hfollows => ?_, fun hstands => ?_⟩
  · exact hfollows.imp TracksMru (fun _ _ _ ht _ hrun => ht.of_access hrun)
      (fun _ a ht => (ht.followsMru_iff a).1) htracks
  · exact hstands.imp TracksMru (fun _ _ _ ht _ hrun => ht.of_access hrun)
      (fun _ a ht => (ht.followsMru_iff a).2) htracks

/-- Two fills of a set of two ways and a miss, which gets the way filled last. -/
theorem followsMru_two_fills_miss :
    Along access FollowsMru (startMru 64 2 (by decide)) [ofTag 1, ofTag 2, ofTag 3] := by
  apply (followsMru_startMru_iff 64 2 (by decide) _).2.2
  apply Along.cons (by decide +kernel)
  apply Along.cons (by decide +kernel)
  exact Along.cons (by decide +kernel) trivial

/-- What the policy promises of a miss, when the way that the miss gets is known. -/
theorem FollowsMru.of_miss {u : UsedSet} {a : LineAccess} (h : FollowsMru u a) (way : ℕ)
    (hmiss : (u.cacheSet.accessSet a.tag).map Prod.fst = some (false, way)) :
    if Filling u.cacheSet then ¬ (u.cacheSet.line way).Valid else u.history.head? = some way := by
  obtain ⟨⟨first, s'⟩, haccess, hfirst⟩ := Option.map_eq_some_iff.1 hmiss
  cases hfirst
  exact h way s' haccess

/-- In a set of three ways a fill, a hit and a second fill leave the way between the two unfilled,
and the next miss does not fill it. In a set of two ways, both filled, a hit of the first is
followed by a miss that gets the second. -/
theorem not_followsMru :
    ¬ Along access FollowsMru (startMru 64 3 (by decide)) [ofTag 1, ofTag 1, ofTag 2, ofTag 3] ∧
      ¬ Along access FollowsMru (startMru 64 2 (by decide)) [ofTag 1, ofTag 2, ofTag 1, ofTag 3] := by
  constructor
  · intro h
    have hlast := h.append (l := [ofTag 1, ofTag 1, ofTag 2]) (eq_ok_endState (by decide +kernel))
    exact absurd (hlast.1.of_miss 2 (by decide +kernel)) (by decide +kernel)
  · intro h
    have hlast := h.append (l := [ofTag 1, ofTag 2, ofTag 1]) (eq_ok_endState (by decide +kernel))
    exact absurd (hlast.1.of_miss 1 (by decide +kernel)) (by decide +kernel)

end UsedSet

end Vpsim.Memory
