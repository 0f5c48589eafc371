import Mathlib.Data.Nat.ModEq
import Mathlib.Logic.Function.Basic

/-!
# Items in the cells of a circular buffer

The cells of a circular buffer are numbered modulo its size. The items in it lie in consecutive cells from the front on.
They stay where they are when a cell outside is written, one more can be written behind them, and the first can go.
-/

namespace Vpsim.Lib

variable {α : Type} {size front i j : ℕ} {cells : ℕ → Option α} {items : List α} {x : α}

/-- The cells from `front` on hold the items. -/
def Stored (size : ℕ) (cells : ℕ → Option α) (front : ℕ) (items : List α) : Prop :=
  ∀ i x, items[i]? = some x → cells ((front + i) % size) = some x

/-- Two cells less than a turn from the front are the same only if they are equally far from it. -/
theorem cell_inj (hi : i < size) (hj : j < size) : (front + i) % size = (front + j) % size ↔ i = j := by
  constructor
  · intro h
    have hmod : i ≡ j [MOD size] := Nat.ModEq.add_left_cancel' front h
    rwa [Nat.ModEq, Nat.mod_eq_of_lt hi, Nat.mod_eq_of_lt hj] at hmod
  · rintro rfl
    rfl

/-- Counting less than once round, only the count zero gives the front. -/
theorem cell_eq_front (hfront : front < size) (hi : i < size) : (front + i) % size = front ↔ i = 0 := by
  rw [← cell_inj hi (Nat.zero_lt_of_lt hi), Nat.add_zero, Nat.mod_eq_of_lt hfront]

/-- The cell after one is the next from the front. -/
theorem cell_succ : ((front + i) % size + 1) % size = (front + (i + 1)) % size := by
  rw [Nat.mod_add_mod, Nat.add_assoc]

/-- Cells may be counted from any cell. -/
theorem cell_add : ((front + j) % size + i) % size = (front + (j + i)) % size := by
  rw [Nat.mod_add_mod, Nat.add_assoc]

namespace Stored

/-- Every buffer stores no items. -/
theorem nil : Stored size cells front [] := by
  intro i x hi
  simp at hi

/-- The front holds the first item. -/
theorem head (h : Stored size cells front (x :: items)) (hfront : front < size) : cells front = some x := by
  have hx := h 0 x rfl
  rwa [Nat.add_zero, Nat.mod_eq_of_lt hfront] at hx

/-- From the next cell on, a buffer stores the items after the first. -/
theorem tail (h : Stored size cells front (x :: items)) : Stored size cells ((front + 1) % size) items := by
  intro i y hi
  rw [cell_add, Nat.add_comm 1 i]
  exact h (i + 1) y hi

/-- An item in the cell behind the others is stored with them. -/
theorem append (h : Stored size cells front items) (hx : cells ((front + items.length) % size) = some x) :
    Stored size cells front (items ++ [x]) := by
  intro i y hi
  rcases Nat.lt_or_ge i items.length with hlt | hge
  · rw [List.getElem?_append_left hlt] at hi
    exact h i y hi
  · rw [List.getElem?_append_right hge] at hi
    have hlt : i - items.length < [x].length := (List.getElem?_eq_some_iff.1 hi).1
    rw [List.length_singleton] at hlt
    have heq : i = items.length := by omega
    rw [heq, Nat.sub_self, List.getElem?_cons_zero] at hi
    rw [heq, hx, hi]

/-- Writing a cell behind the items leaves them stored. -/
theorem update (h : Stored size cells front items) (hj : items.length ≤ j) (hsize : j < size) (v : Option α) :
    Stored size (Function.update cells ((front + j) % size) v) front items := by
  intro i y hi
  have hlt : i < items.length := (List.getElem?_eq_some_iff.1 hi).1
  rw [Function.update_of_ne]
  · exact h i y hi
  · rw [Ne, cell_inj (by omega) hsize]
    omega

end Stored

end Vpsim.Lib
