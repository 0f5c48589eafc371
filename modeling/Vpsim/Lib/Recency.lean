import Mathlib.Data.List.Basic
import Mathlib.Data.Set.Function
import Mathlib.Data.Nat.Notation
import Mathlib.Order.Interval.Set.Defs

/-!
# Ranks that follow the order of use

Places carry ranks. The use of a place gives it rank 0, and every place that was younger ages by
one. The ranks stay a numbering of the places, and they order the places by their last use: the
higher the rank, the longer ago. Places that were never used keep the order of the first ranks.

A history lists the places used, the last one first.
-/

namespace Vpsim.Lib

variable {α : Type} [DecidableEq α] {places : Set α} {n : ℕ} {rank first : α → ℕ}

/-- The ranks after a use of `x`. -/
def touch (rank : α → ℕ) (x y : α) : ℕ :=
  if y = x then 0 else if rank y < rank x then rank y + 1 else rank y

/-- The place used has the lowest rank. -/
@[simp] theorem touch_self (rank : α → ℕ) (x : α) : touch rank x x = 0 := if_pos rfl

/-- Another place moves up by one if it was below the place used. -/
theorem touch_of_ne (rank : α → ℕ) {x y : α} (h : y ≠ x) :
    touch rank x y = if rank y < rank x then rank y + 1 else rank y := if_neg h

/-- A use leaves the order of the other places as it is. -/
theorem touch_lt_touch_iff (hrank : Set.InjOn rank places) {x y z : α} (hx : x ∈ places) (hy : y ∈ places)
    (hz : z ∈ places) (hyx : y ≠ x) (hzx : z ≠ x) :
    touch rank x y < touch rank x z ↔ rank y < rank z := by
  have hry : rank y ≠ rank x := fun h => hyx (hrank hy hx h)
  have hrz : rank z ≠ rank x := fun h => hzx (hrank hz hx h)
  rw [touch_of_ne rank hyx, touch_of_ne rank hzx]
  split <;> split <;> omega

/-- Another place is older than the place used. -/
theorem touch_pos (hrank : Set.InjOn rank places) {x y : α} (hx : x ∈ places) (hy : y ∈ places)
    (hyx : y ≠ x) : 0 < touch rank x y := by
  have hry : rank y ≠ rank x := fun h => hyx (hrank hy hx h)
  rw [touch_of_ne rank hyx]
  split <;> omega

/-- The ranks stay a numbering of the places. -/
theorem bijOn_touch (hrank : Set.BijOn rank places (Set.Iio n)) {x : α} (hx : x ∈ places) :
    Set.BijOn (touch rank x) places (Set.Iio n) := by
  have hxn : rank x < n := hrank.mapsTo hx
  refine ⟨fun y hy => ?_, fun y hy z hz heq => ?_, fun r hr => ?_⟩
  · have hyn : rank y < n := hrank.mapsTo hy
    change touch rank x y < n
    unfold touch
    split
    · omega
    · split <;> omega
  · by_cases hyx : y = x
    · by_cases hzx : z = x
      · rw [hyx, hzx]
      · have hpos := touch_pos hrank.injOn hx hz hzx
        rw [← heq, hyx, touch_self] at hpos
        exact absurd hpos (Nat.lt_irrefl 0)
    · by_cases hzx : z = x
      · have hpos := touch_pos hrank.injOn hx hy hyx
        rw [heq, hzx, touch_self] at hpos
        exact absurd hpos (Nat.lt_irrefl 0)
      · have hyz := touch_lt_touch_iff hrank.injOn hx hy hz hyx hzx
        have hzy := touch_lt_touch_iff hrank.injOn hx hz hy hzx hyx
        apply hrank.injOn hy hz
        omega
  · have hrn : r < n := hr
    -- the place that comes to have rank `r`: `x` itself, one below `x`, or one above it
    by_cases hzero : r = 0
    · exact ⟨x, hx, (touch_self rank x).trans hzero.symm⟩
    · by_cases hle : r ≤ rank x
      · obtain ⟨y, hy, hyr⟩ := hrank.surjOn (show r - 1 ∈ Set.Iio n from by change r - 1 < n; omega)
        have hne : y ≠ x := by
          intro h
          rw [h] at hyr
          omega
        refine ⟨y, hy, ?_⟩
        rw [touch_of_ne rank hne, if_pos (by omega)]
        omega
      · obtain ⟨y, hy, hyr⟩ := hrank.surjOn hr
        have hne : y ≠ x := by
          intro h
          rw [h] at hyr
          omega
        refine ⟨y, hy, ?_⟩
        rw [touch_of_ne rank hne, if_neg (by omega)]
        exact hyr

/-- The ranks after the uses of a history. -/
def ranksAfter (first : α → ℕ) (history : List α) : α → ℕ :=
  history.foldr (fun x rank => touch rank x) first

/-- The last use of `y` is longer ago than that of `z`. A place that was never used comes before
the used ones, and of two such places the one with the higher first rank. -/
def UsedBefore (first : α → ℕ) (history : List α) (y z : α) : Prop :=
  history.idxOf z < history.idxOf y ∨ y ∉ history ∧ z ∉ history ∧ first z < first y

instance (first : α → ℕ) (history : List α) (y z : α) : Decidable (UsedBefore first history y z) :=
  inferInstanceAs (Decidable (_ ∨ _))

/-- The ranks after a history of uses number the places. -/
theorem bijOn_ranksAfter (hfirst : Set.BijOn first places (Set.Iio n)) {history : List α}
    (hhistory : ∀ x ∈ history, x ∈ places) : Set.BijOn (ranksAfter first history) places (Set.Iio n) := by
  induction history with
  | nil => exact hfirst
  | cons x history ih =>
    have hrest := ih fun y hy => hhistory y (List.mem_cons_of_mem x hy)
    exact bijOn_touch hrest (hhistory x List.mem_cons_self)

/-- The ranks order the places by their last use. -/
theorem ranksAfter_lt_iff (hfirst : Set.BijOn first places (Set.Iio n)) {history : List α}
    (hhistory : ∀ x ∈ history, x ∈ places) {y z : α} (hy : y ∈ places) (hz : z ∈ places) :
    ranksAfter first history z < ranksAfter first history y ↔ UsedBefore first history y z := by
  induction history with
  | nil => simp [ranksAfter, UsedBefore]
  | cons x history ih =>
    have hplaces : ∀ y ∈ history, y ∈ places := fun y hy => hhistory y (List.mem_cons_of_mem x hy)
    have hrest := bijOn_ranksAfter hfirst hplaces
    have hx := hhistory x List.mem_cons_self
    change touch (ranksAfter first history) x z < touch (ranksAfter first history) x y ↔ _
    unfold UsedBefore
    by_cases hyx : y = x
    · rw [hyx, touch_self, List.idxOf_cons_self]
      simp
    · by_cases hzx : z = x
      · have hpos := touch_pos hrest.injOn hx hy hyx
        rw [hzx, touch_self, List.idxOf_cons_self, List.idxOf_cons_ne _ (Ne.symm hyx)]
        simp [hpos]
      · rw [touch_lt_touch_iff hrest.injOn hx hz hy hzx hyx, ih hplaces,
          List.idxOf_cons_ne _ (Ne.symm hyx), List.idxOf_cons_ne _ (Ne.symm hzx)]
        simp [UsedBefore, hyx, hzx]

end Vpsim.Lib
