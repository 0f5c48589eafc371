import Mathlib.Data.Nat.Bitwise
import Mathlib.Data.Nat.Log
import Mathlib.Tactic.Linarith

/-!
# Bit fields of an address

An address is cut into consecutive fields by a right shift and a mask. Two fields that
lie side by side and reach the top of the address determine exactly the bits from the
lower field upwards, and nothing below it.
-/

namespace Vpsim.Lib

/-- The mask of the `bits` least-significant bits. -/
def lowMask (bits : ℕ) : ℕ := (1 <<< bits) - 1

/-- The field of `bits` bits that starts at position `shift`. -/
def bitField (x shift bits : ℕ) : ℕ := (x >>> shift) &&& lowMask bits

/-- Masking the low bits is taking the remainder. -/
theorem and_lowMask (x bits : ℕ) : x &&& lowMask bits = x % 2 ^ bits := by
  rw [lowMask, Nat.one_shiftLeft, Nat.and_two_pow_sub_one_eq_mod]

/-- A field is a quotient, reduced to its bits. -/
theorem bitField_eq (x shift bits : ℕ) : bitField x shift bits = x / 2 ^ shift % 2 ^ bits := by
  rw [bitField, and_lowMask, Nat.shiftRight_eq_div_pow]

/-- A field is smaller than the power of its width. -/
theorem bitField_lt (x shift bits : ℕ) : bitField x shift bits < 2 ^ bits := by
  rw [bitField_eq]
  exact Nat.mod_lt _ (by positivity)

/-- The top field keeps every bit above its position. -/
theorem bitField_top {x shift bits : ℕ} (hx : x < 2 ^ (shift + bits)) :
    bitField x shift bits = x / 2 ^ shift := by
  rw [bitField_eq, Nat.mod_eq_of_lt]
  rw [Nat.div_lt_iff_lt_mul (by positivity), ← pow_add]
  simpa only [Nat.add_comm] using hx

/-- Two neighbouring fields that reach the top agree exactly when the addresses agree from
the lower field upwards. -/
theorem bitFields_eq_iff {x y shift low high : ℕ} (hx : x < 2 ^ (shift + low + high))
    (hy : y < 2 ^ (shift + low + high)) :
    (bitField x shift low = bitField y shift low ∧
        bitField x (shift + low) high = bitField y (shift + low) high) ↔
      x / 2 ^ shift = y / 2 ^ shift := by
  rw [bitField_top hx, bitField_top hy, bitField_eq, bitField_eq, pow_add,
    ← Nat.div_div_eq_div_mul, ← Nat.div_div_eq_div_mul]
  constructor
  · rintro ⟨hlow, hhigh⟩
    rw [← Nat.div_add_mod (x / 2 ^ shift) (2 ^ low), hlow, hhigh, Nat.div_add_mod]
  · intro h
    rw [h]
    exact ⟨rfl, rfl⟩

/-- A multiple of a power of two is given back by its quotient. -/
theorem eq_of_div_eq {x y bits : ℕ} (hx : 2 ^ bits ∣ x) (hy : 2 ^ bits ∣ y)
    (h : x / 2 ^ bits = y / 2 ^ bits) : x = y := by
  rw [← Nat.div_mul_cancel hx, h, Nat.div_mul_cancel hy]

end Vpsim.Lib
