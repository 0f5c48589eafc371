import Mathlib.Data.List.Basic
import Mathlib.Data.Nat.Notation
import Mathlib.Algebra.Order.Ring.Nat

/-!
# Buffers of bytes

A structure in memory is a list of bytes with fields at fixed offsets. `slice` reads a field and `patch`
overwrites one. Numbers are stored in little-endian order.
-/

namespace Vpsim.Lib

/-- The `n` low bytes of a number, the least significant first. -/
def leBytes : (n : ℕ) → ℕ → List UInt8
  | 0, _ => []
  | n + 1, w => UInt8.ofNat w :: leBytes n (w / 256)

/-- The number that a list of bytes stores. -/
def leValue : List UInt8 → ℕ
  | [] => 0
  | b :: l => b.toNat + 256 * leValue l

@[simp] theorem length_leBytes (n w : ℕ) : (leBytes n w).length = n := by
  induction n generalizing w with
  | zero => rfl
  | succ n ih => simp [leBytes, ih]

/-- A number that fits the bytes reads back. -/
theorem leValue_leBytes {n w : ℕ} (h : w < 256 ^ n) : leValue (leBytes n w) = w := by
  induction n generalizing w with
  | zero =>
    rw [pow_zero] at h
    exact (Nat.lt_one_iff.1 h).symm
  | succ n ih =>
    have hdiv : w / 256 < 256 ^ n := by
      rw [Nat.div_lt_iff_lt_mul (by decide), ← pow_succ]
      exact h
    have hbyte : (UInt8.ofNat w).toNat = w % 256 := rfl
    rw [leBytes, leValue, ih hdiv, hbyte]
    omega

/-- The bytes from `offset` on. -/
def slice (offset len : ℕ) (mem : List UInt8) : List UInt8 := (mem.drop offset).take len

/-- Overwrite the bytes from `offset` on. -/
def patch (offset : ℕ) (bytes mem : List UInt8) : List UInt8 :=
  mem.take offset ++ bytes ++ mem.drop (offset + bytes.length)

variable {offset len : ℕ} {b mem : List UInt8}

theorem length_slice (h : offset + len ≤ mem.length) : (slice offset len mem).length = len := by
  unfold slice
  rw [List.length_take, List.length_drop]
  omega

@[simp] theorem length_patch (h : offset + b.length ≤ mem.length) :
    (patch offset b mem).length = mem.length := by
  unfold patch
  rw [List.length_append, List.length_append, List.length_take, List.length_drop]
  omega

theorem patch_nil (offset : ℕ) (mem : List UInt8) : patch offset [] mem = mem := by
  unfold patch
  rw [List.append_nil, List.length_nil, Nat.add_zero, List.take_append_drop]

/-- Overwriting everything leaves the new bytes. -/
theorem patch_zero (h : b.length = mem.length) : patch 0 b mem = b := by
  unfold patch
  rw [List.take_zero, List.nil_append, Nat.zero_add, h, List.drop_length, List.append_nil]

/-- A field that has just been written reads back. -/
theorem slice_patch (h : offset ≤ mem.length) (hlen : b.length = len) :
    slice offset len (patch offset b mem) = b := by
  have htake : (mem.take offset).length = offset := List.length_take_of_le h
  unfold slice patch
  rw [List.append_assoc, List.drop_append_of_le_length htake.ge, List.drop_of_length_le htake.le,
    List.nil_append, ← hlen, List.take_left]

/-- The beginning of a field reads back when only this part of it has been written. -/
theorem take_slice_patch (h : offset ≤ mem.length) (hlen : b.length ≤ len) :
    (slice offset len (patch offset b mem)).take b.length = b := by
  have hslice := slice_patch (b := b) h rfl
  unfold slice at hslice ⊢
  rw [List.take_take, min_eq_left hlen]
  exact hslice

/-- A field before the written one reads as before. -/
theorem slice_patch_before {off : ℕ} (h : offset ≤ mem.length) (hoff : off + len ≤ offset) :
    slice off len (patch offset b mem) = slice off len mem := by
  have htake : (mem.take offset).length = offset := List.length_take_of_le h
  unfold slice patch
  rw [List.append_assoc, List.drop_append_of_le_length (by omega), List.take_append_of_le_length (by
    rw [List.length_drop]
    omega), List.drop_take, List.take_take, min_eq_left (by omega)]

/-- A buffer whose end is overwritten begins as before, with the new bytes behind. -/
theorem take_patch (h : offset ≤ mem.length) :
    (patch offset b mem).take (offset + b.length) = mem.take offset ++ b := by
  have htake : (mem.take offset ++ b).length = offset + b.length := by
    rw [List.length_append, List.length_take_of_le h]
  unfold patch
  rw [← htake, List.take_left]

/-- Overwriting changes the bytes at the places written, and no others. -/
theorem getElem?_patch (h : offset + b.length ≤ mem.length) (i : ℕ) :
    (patch offset b mem)[i]? = if offset ≤ i ∧ i < offset + b.length then b[i - offset]? else mem[i]? := by
  have htake : (mem.take offset).length = offset := List.length_take_of_le (by omega)
  unfold patch
  rw [List.append_assoc, List.getElem?_append, htake]
  by_cases hbefore : i < offset
  · rw [if_pos hbefore, if_neg (by omega), List.getElem?_take_of_lt hbefore]
  · rw [if_neg hbefore, List.getElem?_append]
    by_cases hin : i - offset < b.length
    · rw [if_pos hin, if_pos (by omega)]
    · rw [if_neg hin, if_neg (by omega), List.getElem?_drop]
      congr 1
      omega

/-- The bytes of a field are those of the buffer from its offset on. -/
theorem getElem?_slice {i : ℕ} (h : i < len) : (slice offset len mem)[i]? = mem[offset + i]? := by
  unfold slice
  rw [List.getElem?_take_of_lt h, List.getElem?_drop]

end Vpsim.Lib
