import Mathlib.Data.Nat.Notation
import Mathlib.Tactic.IntervalCases

/-!
# Byte-addressed memory

A memory gives every address a byte. A store changes a block of consecutive bytes and nothing
else; a word of four bytes is read and written in little-endian order.
-/

namespace Vpsim.Lib

/-- A memory of bytes. -/
abbrev ByteMemory := ℕ → BitVec 8

/-- Replace the `len` bytes from `addr` on. -/
def store (mem : ByteMemory) (addr len : ℕ) (byte : ℕ → BitVec 8) : ByteMemory :=
  fun a => if addr ≤ a ∧ a < addr + len then byte (a - addr) else mem a

/-- Byte `i` of a word, from the least significant. -/
def wordByte (w : BitVec 32) (i : ℕ) : BitVec 8 := w.extractLsb' (8 * i) 8

/-- The word whose least significant byte is at `addr`. -/
def loadWord (mem : ByteMemory) (addr : ℕ) : BitVec 32 :=
  mem (addr + 3) ++ mem (addr + 2) ++ mem (addr + 1) ++ mem addr

/-- Write a word. -/
def storeWord (mem : ByteMemory) (addr : ℕ) (w : BitVec 32) : ByteMemory :=
  store mem addr 4 (wordByte w)

/-- Write one byte. -/
def storeByte (mem : ByteMemory) (addr : ℕ) (b : BitVec 8) : ByteMemory :=
  store mem addr 1 fun _ => b

variable {mem mem' : ByteMemory} {addr len a : ℕ} {byte : ℕ → BitVec 8}

/-- A store leaves every byte outside its block alone. -/
theorem store_frame (h : a < addr ∨ addr + len ≤ a) : store mem addr len byte a = mem a := by
  unfold store
  rw [if_neg]
  omega

/-- A store puts its bytes into the block. -/
theorem store_add {i : ℕ} (h : i < len) : store mem addr len byte (addr + i) = byte i := by
  unfold store
  rw [if_pos (by omega), Nat.add_sub_cancel_left]

@[simp] theorem storeByte_self (b : BitVec 8) : storeByte mem addr b addr = b := by
  unfold storeByte store
  rw [if_pos (by omega)]

theorem storeByte_frame {b : BitVec 8} (h : a ≠ addr) : storeByte mem addr b a = mem a :=
  store_frame (by omega)

theorem storeWord_frame {w : BitVec 32} (h : a < addr ∨ addr + 4 ≤ a) :
    storeWord mem addr w a = mem a :=
  store_frame h

/-- A word of ones leaves a byte of ones as it is. -/
theorem storeWord_ones (h : mem a = 0xff#8) : storeWord mem addr 0xffffffff#32 a = 0xff#8 := by
  unfold storeWord store
  split
  · obtain ⟨i, rfl⟩ : ∃ i, a = addr + i := ⟨a - addr, by omega⟩
    rw [Nat.add_sub_cancel_left]
    obtain rfl | rfl | rfl | rfl : i = 0 ∨ i = 1 ∨ i = 2 ∨ i = 3 := by omega
    · decide
    · decide
    · decide
    · decide
  · exact h

/-- A word depends on its four bytes only. -/
theorem loadWord_congr (h : ∀ i < 4, mem (addr + i) = mem' (addr + i)) :
    loadWord mem addr = loadWord mem' addr := by
  have h0 := h 0 (by omega)
  rw [Nat.add_zero] at h0
  unfold loadWord
  rw [h0, h 1 (by omega), h 2 (by omega), h 3 (by omega)]

/-- The bits of a word come from its bytes. -/
theorem getLsbD_loadWord {k : ℕ} (hk : k < 32) :
    (loadWord mem addr).getLsbD k = (mem (addr + k / 8)).getLsbD (k % 8) := by
  unfold loadWord
  simp only [BitVec.getLsbD_append]
  rcases (by omega : k / 8 = 0 ∨ k / 8 = 1 ∨ k / 8 = 2 ∨ k / 8 = 3) with h | h | h | h
  · have : k % 8 = k := by omega
    simp [h, this, show k < 8 by omega]
  · have : k % 8 = k - 8 := by omega
    simp [h, this, show ¬ k < 8 by omega, show k - 8 < 8 by omega]
  · have : k % 8 = k - 8 - 8 := by omega
    simp [h, this, show ¬ k < 8 by omega, show ¬ k - 8 < 8 by omega, show k - 8 - 8 < 8 by omega]
  · have : k % 8 = k - 8 - 8 - 8 := by omega
    simp [h, this, show ¬ k < 8 by omega, show ¬ k - 8 < 8 by omega, show ¬ k - 8 - 8 < 8 by omega]

/-- The bytes of a word that is read are those of the memory. -/
theorem wordByte_loadWord {i : ℕ} (hi : i < 4) : wordByte (loadWord mem addr) i = mem (addr + i) := by
  apply BitVec.eq_of_getLsbD_eq
  intro j hj
  rw [wordByte, BitVec.getLsbD_extractLsb', getLsbD_loadWord (by omega)]
  have hdiv : (8 * i + j) / 8 = i := by omega
  have hmod : (8 * i + j) % 8 = j := by omega
  simp [hj, hdiv, hmod]

/-- A word that is stored reads back. -/
@[simp] theorem loadWord_storeWord (w : BitVec 32) : loadWord (storeWord mem addr w) addr = w := by
  apply BitVec.eq_of_getLsbD_eq
  intro k hk
  rw [getLsbD_loadWord hk, storeWord, store_add (by omega), wordByte, BitVec.getLsbD_extractLsb']
  have h8 : k % 8 < 8 := Nat.mod_lt _ (by omega)
  have hsum : 8 * (k / 8) + k % 8 = k := Nat.div_add_mod k 8
  simp [h8, hsum]

/-- A word outside a stored block reads as before. -/
theorem loadWord_store_frame {b : ℕ} (h : b + 4 ≤ addr ∨ addr + len ≤ b) :
    loadWord (store mem addr len byte) b = loadWord mem b := by
  apply loadWord_congr
  intro i hi
  exact store_frame (by omega)

/-! ## Single bits -/

/-- The shifted one has this one bit. -/
theorem getLsbD_oneShift {i j : ℕ} (hi : i < 32) : (1#32 <<< j).getLsbD i = decide (i = j) := by
  rw [BitVec.getLsbD_shiftLeft, BitVec.getLsbD_one]
  by_cases h : i = j
  · subst h
    simp [hi]
  · rw [decide_eq_false h]
    by_cases hlt : i < j
    · simp [hlt]
    · have hne : i - j ≠ 0 := by omega
      simp [hne]

/-- Setting bit `j` of a word leaves its other bits. -/
theorem getLsbD_setBit {i j : ℕ} (hi : i < 32) (w : BitVec 32) :
    (w ||| 1#32 <<< j).getLsbD i = (w.getLsbD i || decide (i = j)) := by
  rw [BitVec.getLsbD_or, getLsbD_oneShift hi]

/-- Clearing bit `j` of a word leaves its other bits. -/
theorem getLsbD_clearBit {i j : ℕ} (hi : i < 32) (w : BitVec 32) :
    (w &&& ~~~(1#32 <<< j)).getLsbD i = (w.getLsbD i && !decide (i = j)) := by
  rw [BitVec.getLsbD_and, BitVec.getLsbD_not, getLsbD_oneShift hi, decide_eq_true hi, Bool.true_and]

/-! ## Several stores -/

/-- The bytes that are stored at an address. -/
structure Block where
  addr : ℕ
  len : ℕ
  byte : ℕ → BitVec 8

/-- The block has a byte for an address. -/
def Block.Covers (b : Block) (a : ℕ) : Prop := b.addr ≤ a ∧ a < b.addr + b.len

instance (b : Block) (a : ℕ) : Decidable (b.Covers a) := inferInstanceAs (Decidable (_ ∧ _))

/-- Store one block after the other. -/
def storeAll (mem : ByteMemory) (blocks : List Block) : ByteMemory :=
  blocks.foldl (fun mem b => store mem b.addr b.len b.byte) mem

/-- The last block that has a byte for an address decides. -/
theorem storeAll_apply (mem : ByteMemory) (blocks : List Block) (a : ℕ) :
    storeAll mem blocks a =
      ((blocks.filter (·.Covers a)).getLast?).elim (mem a) fun b => b.byte (a - b.addr) := by
  induction blocks generalizing mem with
  | nil => rfl
  | cons b blocks ih =>
    change storeAll (store mem b.addr b.len b.byte) blocks a = _
    rw [ih]
    by_cases hcovers : b.Covers a
    · have hfilter : (b :: blocks).filter (·.Covers a) = b :: blocks.filter (·.Covers a) :=
        List.filter_cons_of_pos (decide_eq_true hcovers)
      rw [hfilter, List.getLast?_cons]
      cases (blocks.filter (·.Covers a)).getLast? with
      | none => exact if_pos hcovers
      | some last => rfl
    · have hfilter : (b :: blocks).filter (·.Covers a) = blocks.filter (·.Covers a) :=
        List.filter_cons_of_neg (by rwa [decide_eq_true_eq])
      rw [hfilter]
      congr 1
      exact if_neg hcovers

end Vpsim.Lib
