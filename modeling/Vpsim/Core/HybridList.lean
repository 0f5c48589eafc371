import Mathlib.Algebra.GroupWithZero.Nat

/-!
# Lists that grow by blocks

`HybridList` keeps its elements in blocks of a fixed size and fills the last one. An iterator goes to
the next block as soon as it leaves one, while the end is counted from the last block. The two agree
unless the last block is full: then the end lies behind this block, where no iterator stops.
-/

namespace Vpsim.Core

/-- A list with blocks of `k` elements. -/
structure HybridList (α : Type) (k : ℕ) where
  mContainer : List (Vector α k)
  mCurrentIdx : ℕ

namespace HybridList

/-- An iterator: a block and a place in it. -/
structure Iterator where
  mIt : ℕ
  mSubIt : ℕ
  deriving DecidableEq

variable {α : Type} {k : ℕ}

section Operations

variable [Inhabited α]

/-- The list has one block from the start. -/
def empty : HybridList α k := ⟨[Vector.replicate k default], 0⟩

/-- A full last block is followed by a new one. -/
def withRoom (h : HybridList α k) : HybridList α k :=
  if k ≤ h.mCurrentIdx then ⟨h.mContainer ++ [Vector.replicate k default], 0⟩ else h

/-- Store into the last block. -/
def store (h : HybridList α k) (val : α) : HybridList α k where
  mContainer := h.mContainer.modify (h.mContainer.length - 1) (·.setIfInBounds h.mCurrentIdx val)
  mCurrentIdx := h.mCurrentIdx + 1

def emplaceBack (h : HybridList α k) (val : α) : HybridList α k := h.withRoom.store val

end Operations

def begin : Iterator := ⟨0, 0⟩

/-- `end`. -/
def last (h : HybridList α k) : Iterator := ⟨h.mContainer.length - 1, h.mCurrentIdx⟩

/-- The element at an iterator, if it is in a block. -/
def deref (h : HybridList α k) (it : Iterator) : Option α := h.mContainer[it.mIt]?.bind (·[it.mSubIt]?)

/-- `++`. There is no result when the iterator steps behind the last block, of which it then takes the
beginning. -/
def next (h : HybridList α k) (it : Iterator) : Option Iterator :=
  if it.mSubIt + 1 = k then if it.mIt + 1 < h.mContainer.length then some ⟨it.mIt + 1, 0⟩ else none
  else some ⟨it.mIt, it.mSubIt + 1⟩

/-- The elements from an iterator to the end, in at most `fuel` steps. -/
def collect (h : HybridList α k) : ℕ → Iterator → Option (List α)
  | 0, _ => none
  | fuel + 1, it =>
    if it = h.last then some []
    else do
      let v ← h.deref it
      let it' ← h.next it
      let rest ← h.collect fuel it'
      return v :: rest

/-- An iteration from the beginning comes to the end with the given elements. -/
def Visits (h : HybridList α k) (values : List α) : Prop := ∃ fuel, h.collect fuel begin = some values

/-! ## What is stored -/

/-- The list has the given values. -/
structure Holds (h : HybridList α k) (values : List α) : Prop where
  blocks_pos : 0 < h.mContainer.length
  filled : (h.mContainer.length - 1) * k + h.mCurrentIdx = values.length
  idx_le : h.mCurrentIdx ≤ k
  idx_pos : values ≠ [] → 0 < h.mCurrentIdx
  stored : ∀ b i, i < k → b * k + i < values.length → h.deref ⟨b, i⟩ = values[b * k + i]?

section Holds

variable [Inhabited α] {h : HybridList α k} {values : List α}

theorem holds_empty : Holds (empty : HybridList α k) [] where
  blocks_pos := Nat.one_pos
  filled := by
    change (1 - 1) * k + 0 = 0
    rw [Nat.sub_self, Nat.zero_mul]
  idx_le := Nat.zero_le k
  idx_pos hne := absurd rfl hne
  stored b i _ hlt := absurd hlt (Nat.not_lt_zero _)

/-- A new block leaves the elements where they are. -/
theorem deref_withRoom (h : HybridList α k) {it : Iterator} (hit : it.mIt < h.mContainer.length) :
    h.withRoom.deref it = h.deref it := by
  unfold withRoom deref
  split
  · dsimp only
    rw [List.getElem?_append_left hit]
  · rfl

/-- There is room in the last block, and what is filled before is the same. -/
theorem Holds.withRoom (h' : Holds h values) (hk : 0 < k) : 0 < h.withRoom.mContainer.length ∧
    (h.withRoom.mContainer.length - 1) * k + h.withRoom.mCurrentIdx = values.length ∧
      h.withRoom.mCurrentIdx < k := by
  have hpos := h'.blocks_pos
  have hfilled := h'.filled
  unfold HybridList.withRoom
  split
  · rename_i hfull
    have hidx : h.mCurrentIdx = k := Nat.le_antisymm h'.idx_le hfull
    rw [List.length_append, List.length_singleton, Nat.add_sub_cancel]
    refine ⟨Nat.succ_pos _, ?_, hk⟩
    rw [← hfilled, hidx, Nat.add_zero]
    obtain ⟨n, hn⟩ := Nat.exists_eq_succ_of_ne_zero (Nat.pos_iff_ne_zero.1 hpos)
    rw [hn, Nat.succ_sub_one, Nat.succ_mul]
  · rename_i hroom
    exact ⟨hpos, hfilled, Nat.lt_of_not_le hroom⟩

omit [Inhabited α] in
/-- After a store the current place holds the element, and the other places hold what they held. -/
theorem deref_store (h : HybridList α k) (val : α) (hpos : 0 < h.mContainer.length) (it : Iterator)
    (hidx : h.mCurrentIdx < k) : (h.store val).deref it =
      if it.mIt = h.mContainer.length - 1 ∧ it.mSubIt = h.mCurrentIdx then some val else h.deref it := by
  unfold store deref
  dsimp only
  rw [List.getElem?_modify]
  by_cases hblock : h.mContainer.length - 1 = it.mIt
  · have hlast : it.mIt < h.mContainer.length := by omega
    rw [List.getElem?_eq_getElem hlast]
    simp only [hblock, if_true, Option.map_eq_map, Option.map_some, Option.bind_some, true_and,
      Vector.getElem?_setIfInBounds]
    by_cases hplace : h.mCurrentIdx = it.mSubIt
    · rw [if_pos hplace, if_pos hplace.symm, if_pos hidx]
    · rw [if_neg hplace, if_neg (Ne.symm hplace)]
  · rw [if_neg fun hat => hblock hat.1.symm]
    simp only [hblock, if_false, Option.map_eq_map, Option.map_id']

omit [Inhabited α] in
/-- The block and the place in it are determined by the number of an element. -/
theorem place_unique {b c i j : ℕ} (hi : i < k) (hj : j < k) (heq : b * k + i = c * k + j) : b = c ∧ i = j := by
  have hblock : ∀ {d l : ℕ}, l < k → (d * k + l) / k = d := by
    intro d l hl
    rw [Nat.add_comm, Nat.add_mul_div_right _ _ (Nat.lt_of_le_of_lt (Nat.zero_le l) hl), Nat.div_eq_of_lt hl,
      Nat.zero_add]
  have hb : b = c := (hblock hi).symm.trans ((congrArg (· / k) heq).trans (hblock hj))
  rw [hb] at heq
  exact ⟨hb, Nat.add_left_cancel heq⟩

/-- A value is stored behind the others. -/
theorem Holds.emplaceBack (h' : Holds h values) (hk : 0 < k) (val : α) :
    Holds (h.emplaceBack val) (values ++ [val]) := by
  obtain ⟨hpos, hfilled, hroom⟩ := h'.withRoom hk
  have hlength : (h.emplaceBack val).mContainer.length = h.withRoom.mContainer.length := List.length_modify _ _ _
  refine ⟨?_, ?_, hroom, fun _ => Nat.succ_pos _, ?_⟩
  · rw [hlength]
    exact hpos
  · rw [hlength, List.length_append, List.length_singleton, ← hfilled]
    rfl
  · intro b i hi hlt
    rw [List.length_append, List.length_singleton] at hlt
    apply (deref_store h.withRoom val hpos ⟨b, i⟩ hroom).trans
    by_cases hnew : b * k + i = values.length
    · rw [if_pos (place_unique hi hroom (hnew.trans hfilled.symm)), hnew, List.getElem?_append_right (Nat.le_refl _),
        Nat.sub_self]
      rfl
    · have hold : b * k + i < values.length := by omega
      have hblock : b < h.mContainer.length := by
        apply Nat.lt_of_mul_lt_mul_right (a := k)
        calc b * k ≤ b * k + i := Nat.le_add_right _ _
          _ < (h.mContainer.length - 1) * k + h.mCurrentIdx := by
            rw [h'.filled]
            exact hold
          _ ≤ (h.mContainer.length - 1) * k + k := Nat.add_le_add_left h'.idx_le _
          _ = h.mContainer.length * k := by rw [← Nat.succ_mul, Nat.succ_eq_add_one, Nat.sub_add_cancel h'.blocks_pos]
      rw [if_neg, deref_withRoom h hblock, h'.stored b i hi hold, List.getElem?_append_left hold]
      intro ⟨hb, hi'⟩
      apply hnew
      rw [← hfilled, ← hb, ← hi']

/-- Values that are stored follow the ones that are there. -/
theorem Holds.foldl (h' : Holds h values) (hk : 0 < k) (more : List α) :
    Holds (more.foldl HybridList.emplaceBack h) (values ++ more) := by
  induction more generalizing h values with
  | nil =>
    rw [List.append_nil]
    exact h'
  | cons val more ih =>
    have hnext := ih (h'.emplaceBack hk val)
    rw [List.append_assoc] at hnext
    exact hnext

end Holds

/-! ## Iterations -/

variable {h : HybridList α k} {values : List α}

/-- The end is in the last block unless this is full. -/
theorem Holds.idx_lt_iff (h' : Holds h values) (hk : 0 < k) : h.mCurrentIdx < k ↔ values = [] ∨ ¬ k ∣ values.length := by
  rw [← h'.filled, Nat.dvd_add_right (Nat.dvd_mul_left _ _)]
  constructor
  · intro hlt
    by_cases hempty : values = []
    · exact .inl hempty
    · exact .inr (Nat.not_dvd_of_pos_of_lt (h'.idx_pos hempty) hlt)
  · intro hor
    apply Nat.lt_of_le_of_ne h'.idx_le
    intro hfull
    rcases hor with rfl | hnot
    · have hfilled := h'.filled
      rw [hfull, List.length_nil] at hfilled
      omega
    · rw [hfull] at hnot
      exact hnot (Nat.dvd_refl k)

/-- From a place in front of the end, an iteration visits the values that are left. -/
theorem Holds.collect_eq (h' : Holds h values) (hroom : h.mCurrentIdx < k) (rest : List α) {b i : ℕ} (hi : i < k)
    (hrest : values.drop (b * k + i) = rest) (hle : b * k + i ≤ values.length) :
    h.collect (rest.length + 1) ⟨b, i⟩ = some rest := by
  induction rest generalizing b i with
  | nil =>
    have hend : b * k + i = values.length := Nat.le_antisymm hle (List.drop_eq_nil_iff.1 hrest)
    obtain ⟨hb, hi'⟩ := place_unique hi hroom (hend.trans h'.filled.symm)
    unfold collect
    rw [if_pos]
    rw [hb, hi']
    rfl
  | cons v rest ih =>
    have hlt : b * k + i < values.length := by
      apply Nat.lt_of_not_le
      intro hge
      rw [List.drop_of_length_le hge] at hrest
      cases hrest
    rw [List.drop_eq_getElem_cons hlt] at hrest
    obtain ⟨hv, htail⟩ := List.cons.inj hrest
    have hne : (⟨b, i⟩ : Iterator) ≠ h.last := by
      intro heq
      have hplace := congrArg (fun it : Iterator => it.mIt * k + it.mSubIt) heq
      exact absurd (hplace.trans h'.filled) (Nat.ne_of_lt hlt)
    have hderef : h.deref ⟨b, i⟩ = some v := by
      rw [h'.stored b i hi hlt, List.getElem?_eq_getElem hlt, hv]
    have hnext : ∃ it', h.next ⟨b, i⟩ = some it' ∧ it'.mSubIt < k ∧ it'.mIt * k + it'.mSubIt = b * k + i + 1 := by
      unfold next
      by_cases hboundary : i + 1 = k
      · -- the last block is not full, so there is another one
        have hblock : b + 1 < h.mContainer.length := by
          apply Nat.lt_of_not_le
          intro hlast
          have hbound : (h.mContainer.length - 1) * k ≤ b * k := Nat.mul_le_mul_right k (by omega)
          have hfilled := h'.filled
          omega
        refine ⟨⟨b + 1, 0⟩, ?_, Nat.lt_of_le_of_lt (Nat.zero_le i) hi, ?_⟩
        · rw [if_pos hboundary, if_pos hblock]
        · dsimp only
          rw [Nat.succ_mul]
          omega
      · refine ⟨⟨b, i + 1⟩, if_neg hboundary, ?_, rfl⟩
        exact Nat.lt_of_le_of_ne hi hboundary
    obtain ⟨⟨b', i'⟩, hnext, hi', hplace⟩ := hnext
    have hih := ih (b := b') hi' (by rw [hplace]; exact htail) (by rw [hplace]; exact hlt)
    unfold collect
    rw [if_neg hne, hderef, hnext]
    change (h.collect (rest.length + 1) ⟨b', i'⟩ >>= fun rest => some (v :: rest)) = _
    rw [hih]
    rfl

/-- With a full last block an iteration does not come to the end. -/
theorem collect_eq_none (hfull : h.mCurrentIdx = k) (fuel : ℕ) {it : Iterator} (hit : it.mSubIt < k) :
    h.collect fuel it = none := by
  induction fuel generalizing it with
  | zero => rfl
  | succ fuel ih =>
    have hne : it ≠ h.last := by
      intro heq
      have hplace := congrArg Iterator.mSubIt heq
      exact absurd (hplace.trans hfull) (Nat.ne_of_lt hit)
    unfold collect
    rw [if_neg hne]
    cases h.deref it with
    | none => rfl
    | some v =>
      cases hnext : h.next it with
      | none => rfl
      | some it' =>
        have hit' : it'.mSubIt < k := by
          unfold next at hnext
          split at hnext
          · split at hnext
            · cases hnext
              exact Nat.lt_of_le_of_lt (Nat.zero_le _) hit
            · cases hnext
          · rename_i hboundary
            cases hnext
            exact Nat.lt_of_le_of_ne hit hboundary
        change (h.collect fuel it' >>= fun rest => some (v :: rest)) = none
        rw [ih hit']
        rfl

/-- After some values are stored into an empty list, an iteration visits them in this order and comes to the
end exactly when the number of values is no positive multiple of the block size. -/
theorem visits_iff [Inhabited α] (hk : 0 < k) (values : List α) :
    Visits (values.foldl emplaceBack (empty : HybridList α k)) values ↔ values = [] ∨ ¬ k ∣ values.length := by
  have h' : Holds (values.foldl emplaceBack (empty : HybridList α k)) values := holds_empty.foldl hk values
  rw [← h'.idx_lt_iff hk]
  constructor
  · intro ⟨fuel, hvisits⟩
    apply Nat.lt_of_le_of_ne h'.idx_le
    intro hfull
    have hbegin : begin.mSubIt < k := hk
    rw [collect_eq_none hfull fuel hbegin] at hvisits
    cases hvisits
  · intro hroom
    refine ⟨values.length + 1, ?_⟩
    apply h'.collect_eq hroom values hk
    · rw [Nat.zero_mul]
      rfl
    · rw [Nat.zero_mul]
      exact Nat.zero_le _

/-- Five values in blocks of two are visited. -/
theorem visits_five : Visits ([1, 2, 3, 4, 5].foldl emplaceBack (empty : HybridList ℕ 2)) [1, 2, 3, 4, 5] :=
  (visits_iff (by decide) _).2 (.inr (by decide))

/-- With four values the last block is full. -/
theorem not_visits_four : ¬ Visits ([1, 2, 3, 4].foldl emplaceBack (empty : HybridList ℕ 2)) [1, 2, 3, 4] := by
  intro ⟨fuel, hvisits⟩
  rw [collect_eq_none (by decide) fuel (by decide)] at hvisits
  cases hvisits

end HybridList

end Vpsim.Core
