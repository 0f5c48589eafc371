import Mathlib.Data.List.Range
import Mathlib.Data.Nat.Notation

/-!
# Spans of a circular address space

The addresses of consecutive bytes in a space of `size` addresses, in order, starting again at 0 after
the last one. A span is the concatenation of the spans of its pieces.
-/

namespace Vpsim.Lib

/-- The addresses of `len` bytes from `addr` on. -/
def span (size addr len : ℕ) : List ℕ := (List.range len).map fun k => (addr + k) % size

variable (size addr : ℕ)

@[simp] theorem length_span (len : ℕ) : (span size addr len).length = len := by
  unfold span
  rw [List.length_map, List.length_range]

/-- The start may be reduced. -/
theorem span_mod (len : ℕ) : span size (addr % size) len = span size addr len := by
  unfold span
  congr 1
  funext k
  exact Nat.mod_add_mod addr size k

/-- A longer span is a span and the one behind it. -/
theorem span_add (len len' : ℕ) : span size addr (len + len') = span size addr len ++ span size (addr + len) len' := by
  unfold span
  rw [List.range_add, List.map_append, List.map_map]
  congr 2
  funext k
  exact congrArg (· % size) (Nat.add_assoc addr len k).symm

/-- Spans are equal only if they have the same length. -/
theorem span_inj {len len' : ℕ} : span size addr len = span size addr len' ↔ len = len' := by
  constructor
  · intro h
    rw [← length_span size addr len, h, length_span]
  · intro h
    rw [h]

end Vpsim.Lib
