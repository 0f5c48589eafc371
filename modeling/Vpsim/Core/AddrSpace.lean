import Mathlib.Data.Nat.Init
import Mathlib.Data.List.Sort
import Mathlib.Algebra.Group.Nat.Even
import Mathlib.Algebra.GroupWithZero.Nat

/-!
# Address spaces

`AddrSpace` is a closed range of 64-bit addresses, given by its first and its last address.
The operations are those of `AddrSpace.cpp`; the lemmas read each of them as a set of
addresses, for ranges whose bounds are in order and fit in 64 bits.
-/

namespace Vpsim.Core

/-- Bounds of an address range: `mBaseAddress` and `mEndAddress`, both included. -/
structure AddrSpace where
  baseAddress : ℕ
  endAddress : ℕ
deriving DecidableEq, Repr

namespace AddrSpace

/-- The number of 64-bit addresses. -/
def addrCount : ℕ := 2 ^ 64

/-- `AddrSpace::maxRange`. -/
def maxRange : AddrSpace := ⟨0, 2 ^ 64 - 1⟩

/-- An address lies between the two bounds. -/
instance : Membership ℕ AddrSpace := ⟨fun s a => s.baseAddress ≤ a ∧ a ≤ s.endAddress⟩

theorem mem_def {s : AddrSpace} {a : ℕ} : a ∈ s ↔ s.baseAddress ≤ a ∧ a ≤ s.endAddress := Iff.rfl

instance (s : AddrSpace) (a : ℕ) : Decidable (a ∈ s) :=
  inferInstanceAs (Decidable (s.baseAddress ≤ a ∧ a ≤ s.endAddress))

/-- The bounds are in order and are 64-bit addresses. -/
structure WellFormed (s : AddrSpace) : Prop where
  base_le_end : s.baseAddress ≤ s.endAddress
  end_lt : s.endAddress < addrCount

instance (s : AddrSpace) : Decidable s.WellFormed :=
  decidable_of_iff (s.baseAddress ≤ s.endAddress ∧ s.endAddress < addrCount)
    ⟨fun h => ⟨h.1, h.2⟩, fun h => ⟨h.1, h.2⟩⟩

theorem WellFormed.base_mem {s : AddrSpace} (h : s.WellFormed) : s.baseAddress ∈ s :=
  ⟨Nat.le_refl _, h.base_le_end⟩

theorem maxRange_wellFormed : maxRange.WellFormed := ⟨Nat.zero_le _, by decide⟩

theorem mem_maxRange {s : AddrSpace} (h : s.WellFormed) {a : ℕ} (ha : a ∈ s) : a ∈ maxRange := by
  have hend := h.end_lt
  rw [mem_def] at ha
  simp only [mem_def, maxRange, addrCount] at hend ⊢
  omega

/-- Two ranges with an address in common meet; `AddrSpace::intersect`. -/
def intersect (s t : AddrSpace) : Bool :=
  decide (s.baseAddress ≤ t.endAddress) && decide (s.endAddress ≥ t.baseAddress)

/-- `AddrSpace::intersection`; ranges that do not meet give the default range. -/
def intersection (s t : AddrSpace) : AddrSpace :=
  if s.intersect t then ⟨max s.baseAddress t.baseAddress, min s.endAddress t.endAddress⟩ else ⟨0, 0⟩

/-- The parts of `s` before and after `t`; `AddrSpace::relativeComplement`. The tests leave no
room for a borrow or a carry in the new bounds. -/
def relativeComplement (s t : AddrSpace) : List AddrSpace :=
  (if s.baseAddress < t.baseAddress then [⟨s.baseAddress, t.baseAddress - 1⟩] else []) ++
  (if s.endAddress > t.endAddress then [⟨t.endAddress + 1, s.endAddress⟩] else [])

/-- `AddrSpace::operator<`: by base address, then by end address. -/
def lt (s t : AddrSpace) : Prop :=
  s.baseAddress < t.baseAddress ∨ (s.baseAddress = t.baseAddress ∧ s.endAddress < t.endAddress)

instance (s t : AddrSpace) : Decidable (lt s t) :=
  inferInstanceAs (Decidable (_ ∨ _))

/-- Number of addresses of the range. -/
def size (s : AddrSpace) : ℕ := s.endAddress + 1 - s.baseAddress

theorem lt_trans {s t u : AddrSpace} (hst : s.lt t) (htu : t.lt u) : s.lt u := by
  unfold lt at *
  omega

theorem lt_irrefl (s : AddrSpace) : ¬ s.lt s := by
  unfold lt
  omega

theorem lt_of_not_lt_of_ne {s t : AddrSpace} (hlt : ¬ s.lt t) (hne : s ≠ t) : t.lt s := by
  obtain ⟨sb, se⟩ := s
  obtain ⟨tb, te⟩ := t
  simp only [lt, ne_eq, mk.injEq] at *
  omega

theorem base_le_of_not_lt {s t : AddrSpace} (h : ¬ t.lt s) : s.baseAddress ≤ t.baseAddress := by
  unfold lt at h
  omega

theorem intersect_iff {s t : AddrSpace} :
    s.intersect t = true ↔ s.baseAddress ≤ t.endAddress ∧ t.baseAddress ≤ s.endAddress := by
  simp [intersect]

/-- Well-formed ranges meet exactly when some address lies in both. -/
theorem intersect_iff_exists_mem {s t : AddrSpace} (hs : s.WellFormed) (ht : t.WellFormed) :
    s.intersect t = true ↔ ∃ a, a ∈ s ∧ a ∈ t := by
  have hs' := hs.base_le_end
  have ht' := ht.base_le_end
  simp only [intersect_iff, mem_def]
  constructor
  · intro h
    exact ⟨max s.baseAddress t.baseAddress, by omega⟩
  · rintro ⟨a, ha⟩
    omega

theorem intersect_of_mem {s t : AddrSpace} {a : ℕ} (hs : a ∈ s) (ht : a ∈ t) :
    s.intersect t = true := by
  rw [intersect_iff]
  rw [mem_def] at hs ht
  omega

theorem mem_intersection {s t : AddrSpace} (h : s.intersect t = true) {a : ℕ} :
    a ∈ s.intersection t ↔ a ∈ s ∧ a ∈ t := by
  simp only [intersection, h, if_true, mem_def]
  omega

theorem WellFormed.intersection {s t : AddrSpace} (hs : s.WellFormed) (ht : t.WellFormed)
    (h : s.intersect t = true) : (s.intersection t).WellFormed := by
  obtain ⟨a, ha⟩ := (intersect_iff_exists_mem hs ht).mp h
  have hmem := (mem_intersection h).mpr ha
  have hend := hs.end_lt
  refine ⟨by rw [mem_def] at hmem; omega, ?_⟩
  simp only [AddrSpace.intersection, h, if_true]
  omega

/-- A piece of `s` outside `t` ends before `t` or starts after it. -/
theorem mem_relativeComplement {s t u : AddrSpace} :
    u ∈ s.relativeComplement t ↔
      (s.baseAddress < t.baseAddress ∧ u = ⟨s.baseAddress, t.baseAddress - 1⟩) ∨
      (s.endAddress > t.endAddress ∧ u = ⟨t.endAddress + 1, s.endAddress⟩) := by
  unfold relativeComplement
  split_ifs with h1 h2 h2 <;> simp [h1, h2]

/-- The pieces cover the addresses of `s` outside `t`, when the two ranges meet. -/
theorem exists_mem_relativeComplement {s t : AddrSpace} (h : s.intersect t = true) {a : ℕ} :
    (∃ u ∈ s.relativeComplement t, a ∈ u) ↔ a ∈ s ∧ a ∉ t := by
  rw [intersect_iff] at h
  simp only [mem_relativeComplement, mem_def, or_and_right, exists_or]
  constructor
  · rintro (⟨u, ⟨h1, rfl⟩, h2⟩ | ⟨u, ⟨h1, rfl⟩, h2⟩)
    · dsimp only at h2
      omega
    · dsimp only at h2
      omega
  · rintro ⟨hs, hnt⟩
    by_cases hb : a < t.baseAddress
    · exact Or.inl ⟨_, ⟨by omega, rfl⟩, by dsimp only; omega⟩
    · exact Or.inr ⟨_, ⟨by omega, rfl⟩, by dsimp only; omega⟩

theorem WellFormed.relativeComplement {s t u : AddrSpace} (hs : s.WellFormed)
    (h : s.intersect t = true) (hu : u ∈ s.relativeComplement t) : u.WellFormed := by
  have hbase := hs.base_le_end
  have hend := hs.end_lt
  rw [intersect_iff] at h
  rcases mem_relativeComplement.mp hu with ⟨hlt, rfl⟩ | ⟨hlt, rfl⟩
  · exact ⟨by dsimp only; omega, by dsimp only; omega⟩
  · exact ⟨by dsimp only; omega, by dsimp only; omega⟩

/-- The pieces have no address in common. -/
theorem relativeComplement_pairwise (s : AddrSpace) {t : AddrSpace} (ht : t.WellFormed) :
    (s.relativeComplement t).Pairwise fun u v => ∀ a ∈ u, a ∉ v := by
  have ht' := ht.base_le_end
  unfold relativeComplement
  split_ifs <;> simp [mem_def]
  omega

theorem WellFormed.size_pos {s : AddrSpace} (h : s.WellFormed) : 0 < s.size := by
  have := h.base_le_end
  unfold size
  omega

/-- The pieces of `s` outside `t` leave out at least one address when the ranges meet. -/
theorem size_relativeComplement_lt {s t : AddrSpace} (hs : s.WellFormed) (ht : t.WellFormed)
    (h : s.intersect t = true) :
    ((s.relativeComplement t).map size).sum + (s.intersection t).size ≤ s.size := by
  have hs' := hs.base_le_end
  have ht' := ht.base_le_end
  have h' := intersect_iff.mp h
  unfold relativeComplement intersection size
  rw [if_pos h]
  split_ifs <;> simp <;> omega

end AddrSpace

end Vpsim.Core
