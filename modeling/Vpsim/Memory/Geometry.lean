import Vpsim.Lib.BitField
import Mathlib.Data.Nat.Log

/-!
# Address decomposition of a cache

The fields that the constructor of `CacheBase` computes from the cache geometry, and the
offset, index and tag that every access function computes from an address. Addresses are
64-bit values, kept as natural numbers.

The source computes its masks as `(1ULL << bits) - 1`. For `TagBits = 64`, reached only by
a cache of one set and one-byte lines, that shift is undefined in C++; the mask below is
then the one its comment describes, the mask of the `TagBits` low bits.
-/

namespace Vpsim.Memory

open Vpsim.Lib

/-- Number of bits of `AddressType`. -/
def addressBits : ℕ := 64

/-- `log2` of `CacheBase.hpp`, `n < 2 ? 0 : 1 + log2 (n / 2)`. -/
def log2 (n : ℕ) : ℕ := Nat.log2 n

/-- `log2` meets the recursion by which the source defines it. -/
theorem log2_eq (n : ℕ) : log2 n = if n < 2 then 0 else 1 + log2 (n / 2) := by
  unfold log2
  rw [Nat.log2_def]
  split <;> split <;> omega

/-- `log2` gives the exponent of a power of two. -/
@[simp] theorem log2_two_pow (k : ℕ) : log2 (2 ^ k) = k := Nat.log2_two_pow

/-- The power of two of `log2 n` is at most `n`. -/
theorem two_pow_log2_le {n : ℕ} (hn : n ≠ 0) : 2 ^ log2 n ≤ n := Nat.log2_self_le hn

/-- The constructor arguments of `CacheBase` that fix its address decomposition. -/
structure Geometry where
  cacheSize : ℕ
  cacheLineSize : ℕ
  associativity : ℕ
  nbInterleavedCaches : ℕ
deriving DecidableEq, Repr

namespace Geometry

variable (g : Geometry)

/-- `NbLines`. -/
def nbLines : ℕ := g.cacheSize / g.cacheLineSize

/-- `NbSets`. -/
def nbSets : ℕ := g.nbLines / g.associativity

/-- The constructor divides by the line size and by the associativity and asserts that the
associativity is at most the number of lines. -/
structure Accepted : Prop where
  cacheLineSize_pos : 0 < g.cacheLineSize
  associativity_pos : 0 < g.associativity
  associativity_le : g.associativity ≤ g.nbLines

/-- `OffsetBits`. -/
def offsetBits : ℕ := log2 g.cacheLineSize

/-- `InterleaveBits`. -/
def interleaveBits : ℕ := if g.nbInterleavedCaches > 0 then log2 g.nbInterleavedCaches else 0

/-- `IndexBits`. -/
def indexBits : ℕ := log2 g.nbSets

/-- `TagBits`. -/
def tagBits : ℕ := addressBits - g.indexBits - g.interleaveBits - g.offsetBits

/-- `IndexShift`. -/
def indexShift : ℕ := g.offsetBits + g.interleaveBits

/-- `TagShift`. -/
def tagShift : ℕ := g.indexBits + g.offsetBits + g.interleaveBits

/-- `addr & OffsetMask`. -/
def offset (addr : ℕ) : ℕ := addr &&& lowMask g.offsetBits

/-- `(addr >> IndexShift) & IndexMask`. -/
def index (addr : ℕ) : ℕ := bitField addr g.indexShift g.indexBits

/-- `(addr >> TagShift) & TagMask`, computed in 64 bits. -/
def tag (addr : ℕ) : ℕ := bitField addr g.tagShift g.tagBits

/-- Base address of the line of `addr`, `addr - offset`. -/
def lineBase (addr : ℕ) : ℕ := addr - g.offset addr

variable {g}

/-- An accepted geometry has at least one set. -/
theorem Accepted.nbSets_pos (h : g.Accepted) : 0 < g.nbSets :=
  Nat.div_pos h.associativity_le h.associativity_pos

/-- The offset is the remainder modulo the power of two of `OffsetBits`. -/
theorem offset_eq (addr : ℕ) : g.offset addr = addr % 2 ^ g.offsetBits := and_lowMask _ _

/-- A line base is at most its address. -/
theorem lineBase_le (addr : ℕ) : g.lineBase addr ≤ addr := Nat.sub_le _ _

/-- An address is less than a line size above its line base. -/
theorem Accepted.sub_lineBase_lt (h : g.Accepted) (addr : ℕ) : addr - g.lineBase addr < g.cacheLineSize := by
  have hoffset : g.offset addr < 2 ^ g.offsetBits := by
    rw [offset_eq]
    exact Nat.mod_lt _ (Nat.two_pow_pos _)
  have hsize : 2 ^ g.offsetBits ≤ g.cacheLineSize := two_pow_log2_le h.cacheLineSize_pos.ne'
  unfold lineBase
  omega

/-- Line bases agree from the offset upwards with their addresses. -/
theorem lineBase_div (addr : ℕ) :
    g.lineBase addr / 2 ^ g.offsetBits = addr / 2 ^ g.offsetBits := by
  rw [lineBase, offset_eq, ← Nat.div_eq_sub_mod_div]

/-- The stored fields cover the whole address. -/
theorem lt_two_pow_fields {addr : ℕ} (h : addr < 2 ^ addressBits) :
    addr < 2 ^ (g.indexShift + g.indexBits + g.tagBits) := by
  refine lt_of_lt_of_le h (Nat.pow_le_pow_right (by decide) ?_)
  unfold tagBits indexShift
  omega

/-- Index and tag together hold exactly the bits from `IndexShift` upwards. -/
theorem index_tag_eq_iff {x y : ℕ} (hx : x < 2 ^ addressBits) (hy : y < 2 ^ addressBits) :
    (g.index x = g.index y ∧ g.tag x = g.tag y) ↔ x / 2 ^ g.indexShift = y / 2 ^ g.indexShift := by
  have hshift : g.tagShift = g.indexShift + g.indexBits := by
    unfold tagShift indexShift
    omega
  unfold index tag
  rw [hshift]
  exact bitFields_eq_iff (lt_two_pow_fields hx) (lt_two_pow_fields hy)

/-- Without interleaving the index starts right above the offset. -/
theorem indexShift_eq (h : g.nbInterleavedCaches ≤ 1) : g.indexShift = g.offsetBits := by
  unfold indexShift interleaveBits
  have hone : log2 1 = 0 := log2_two_pow 0
  rcases Nat.le_one_iff_eq_zero_or_eq_one.1 h with h | h <;> simp [h, hone]

/-- Without interleaving, two line addresses with the same index and tag are the same. -/
theorem eq_of_index_tag (h : g.nbInterleavedCaches ≤ 1) {x y : ℕ} (hx : x < 2 ^ addressBits)
    (hy : y < 2 ^ addressBits) (hxl : 2 ^ g.offsetBits ∣ x) (hyl : 2 ^ g.offsetBits ∣ y)
    (hindex : g.index x = g.index y) (htag : g.tag x = g.tag y) : x = y := by
  have hdiv := (index_tag_eq_iff hx hy).1 ⟨hindex, htag⟩
  rw [indexShift_eq h] at hdiv
  exact eq_of_div_eq hxl hyl hdiv

/-- The index only depends on the line. -/
theorem index_lineBase (addr : ℕ) : g.index (g.lineBase addr) = g.index addr := by
  unfold index
  rw [bitField_eq, bitField_eq, indexShift, pow_add, ← Nat.div_div_eq_div_mul, lineBase_div,
    Nat.div_div_eq_div_mul]

/-- The tag only depends on the line. -/
theorem tag_lineBase (addr : ℕ) : g.tag (g.lineBase addr) = g.tag addr := by
  have hshift : g.tagShift = g.offsetBits + (g.indexBits + g.interleaveBits) := by
    unfold tagShift
    omega
  unfold tag
  rw [bitField_eq, bitField_eq, hshift, pow_add, ← Nat.div_div_eq_div_mul, lineBase_div,
    Nat.div_div_eq_div_mul]

/-- A tag is at most its address. -/
theorem tag_le (addr : ℕ) : g.tag addr ≤ addr := by
  rw [tag, bitField_eq]
  exact (Nat.mod_le _ _).trans (Nat.div_le_self _ _)

/-- The index selects an existing set. -/
theorem Accepted.index_lt (h : g.Accepted) (addr : ℕ) : g.index addr < g.nbSets :=
  lt_of_lt_of_le (bitField_lt _ _ _) (two_pow_log2_le h.nbSets_pos.ne')

end Geometry

end Vpsim.Memory
