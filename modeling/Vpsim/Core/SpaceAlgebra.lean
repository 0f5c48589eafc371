import Vpsim.Core.TargetIf

/-!
# Address spaces as sets

What the operations of `AddrSpace` say about the addresses of two spaces, and `setSize`, which stores the last
address before it looks for an overflow. Two spaces that do not meet are taken by no branch of their own: the
pieces of `relativeComplement` then reach up to the other space, and `intersection` returns the space `AddrSpace()`,
whose size 0 is its last address.
-/

namespace Vpsim.Core

namespace AddrSpace

/-- `contains`. -/
def contains (s t : AddrSpace) : Bool :=
  decide (s.baseAddress ≤ t.baseAddress) && decide (s.endAddress ≥ t.endAddress)

/-- `setSize`: what it throws, and the space it leaves. -/
def setSize (s : AddrSpace) (size : ℕ) : Except String Unit × AddrSpace :=
  let after : AddrSpace := { s with endAddress := (s.baseAddress + size + addrCount - 1) % addrCount }
  if (s.baseAddress + size) % addrCount < after.endAddress then (throw "setSize caused an overflow", after)
  else (return (), after)

/-- `setSize` throws. -/
def SizeThrows (s : AddrSpace) (size : ℕ) : Prop := (s.setSize size).1 = throw "setSize caused an overflow"

/-- The pieces of `s` outside `t` are spaces without a common address, with the addresses of `s` that `t` lacks. -/
structure ComplementFaithful (s t : AddrSpace) : Prop where
  mem_iff (a : ℕ) : (∃ u ∈ s.relativeComplement t, a ∈ u) ↔ a ∈ s ∧ a ∉ t
  wellFormed : ∀ u ∈ s.relativeComplement t, u.WellFormed
  disjoint : (s.relativeComplement t).Pairwise fun u v => ∀ a ∈ u, a ∉ v

/-- The intersection has the addresses of both, and none when `intersect` denies that there are any. -/
structure IntersectionFaithful (s t : AddrSpace) : Prop where
  mem_iff : s.intersect t = true → ∀ a, a ∈ s.intersection t ↔ a ∈ s ∧ a ∈ t
  empty : s.intersect t = false → ∀ a, a ∉ s.intersection t

/-- The two tests say what they say about the addresses. -/
structure TestsFaithful (s t : AddrSpace) : Prop where
  intersect_iff : s.intersect t = true ↔ ∃ a, a ∈ s ∧ a ∈ t
  contains_iff : s.contains t = true ↔ ∀ a ∈ t, a ∈ s
  contains_iff_complement : s.contains t = true ↔ t.relativeComplement s = []

/-- The operations on two spaces are those of sets of addresses. -/
structure Faithful (s t : AddrSpace) : Prop where
  complement : s.ComplementFaithful t
  intersection : s.IntersectionFaithful t
  tests : s.TestsFaithful t

/-- `setSize` throws when the last address does not fit, then leaves the space, and otherwise sets the size. -/
structure SizeFaithful (s : AddrSpace) (size : ℕ) : Prop where
  throws_iff : s.SizeThrows size ↔ addrCount - 1 < s.baseAddress + size - 1
  unchanged : s.SizeThrows size → (s.setSize size).2 = s
  getSize : ¬ s.SizeThrows size → (s.setSize size).2.getSize = .ok size ∨ (s.setSize size).2 = maxRange

variable {s t : AddrSpace}

/-- Spaces that meet, or of which one starts where the other ends. -/
def Touches (s t : AddrSpace) : Prop := s.baseAddress ≤ t.endAddress + 1 ∧ t.baseAddress ≤ s.endAddress + 1

theorem mem_relativeComplement_iff (a : ℕ) :
    (∃ u ∈ s.relativeComplement t, a ∈ u) ↔
      (s.baseAddress < t.baseAddress ∧ s.baseAddress ≤ a ∧ a ≤ t.baseAddress - 1) ∨
      (t.endAddress < s.endAddress ∧ t.endAddress + 1 ≤ a ∧ a ≤ s.endAddress) := by
  simp only [mem_relativeComplement]
  constructor
  · rintro ⟨u, ⟨hlt, rfl⟩ | ⟨hlt, rfl⟩, ha⟩
    · exact Or.inl ⟨hlt, ha⟩
    · exact Or.inr ⟨hlt, ha⟩
  · rintro (⟨hlt, ha⟩ | ⟨hlt, ha⟩)
    · exact ⟨_, Or.inl ⟨hlt, rfl⟩, ha⟩
    · exact ⟨_, Or.inr ⟨hlt, rfl⟩, ha⟩

/-- The pieces are right up to spaces that only touch. -/
theorem complementFaithful_iff (hs : s.WellFormed) (ht : t.WellFormed) :
    s.ComplementFaithful t ↔ s.Touches t := by
  have hs' := hs.base_le_end
  have hsEnd := hs.end_lt
  have ht' := ht.base_le_end
  unfold Touches
  constructor
  · intro h
    constructor
    · -- otherwise the address right after `t` is in the second piece, and not in `s`
      by_contra hgap
      have hmem := (h.mem_iff (t.endAddress + 1)).mp
        ((mem_relativeComplement_iff _).mpr (Or.inr ⟨by omega, Nat.le_refl _, by omega⟩))
      rw [mem_def] at hmem
      omega
    · by_contra hgap
      have hmem := (h.mem_iff (t.baseAddress - 1)).mp
        ((mem_relativeComplement_iff _).mpr (Or.inl ⟨by omega, by omega, Nat.le_refl _⟩))
      rw [mem_def] at hmem
      omega
  · rintro ⟨hst, hts⟩
    refine ⟨fun a => ?_, fun u hu => ?_, relativeComplement_pairwise s ht⟩
    · rw [mem_relativeComplement_iff, mem_def, mem_def]
      omega
    · rcases mem_relativeComplement.mp hu with ⟨hlt, rfl⟩ | ⟨hlt, rfl⟩
      · exact ⟨by dsimp only; omega, by dsimp only; omega⟩
      · exact ⟨by dsimp only; omega, by dsimp only; omega⟩

/-- The intersection is right only for spaces that meet: there is no space without an address to return. -/
theorem intersectionFaithful_iff : s.IntersectionFaithful t ↔ s.intersect t = true := by
  constructor
  · intro h
    by_contra hmeet
    have hfalse : s.intersect t = false := by simpa using hmeet
    have hzero : 0 ∈ s.intersection t := by simp [AddrSpace.intersection, hfalse, mem_def]
    exact h.empty hfalse 0 hzero
  · intro h
    exact ⟨fun _ _ => mem_intersection h, fun hfalse => by simp [h] at hfalse⟩

theorem contains_iff (ht : t.WellFormed) : s.contains t = true ↔ ∀ a ∈ t, a ∈ s := by
  have ht' := ht.base_le_end
  simp only [contains, Bool.and_eq_true, decide_eq_true_eq, mem_def]
  constructor
  · intro h a ha
    omega
  · intro h
    have hbase := h t.baseAddress ⟨Nat.le_refl _, ht'⟩
    have hend := h t.endAddress ⟨ht', Nat.le_refl _⟩
    omega

theorem testsFaithful (hs : s.WellFormed) (ht : t.WellFormed) : s.TestsFaithful t where
  intersect_iff := intersect_iff_exists_mem hs ht
  contains_iff := contains_iff ht
  contains_iff_complement := by
    unfold contains relativeComplement
    split_ifs <;> simp <;> omega

theorem Touches.of_intersect (h : s.intersect t = true) : s.Touches t := by
  rw [AddrSpace.intersect_iff] at h
  unfold Touches
  omega

theorem faithful_iff (hs : s.WellFormed) (ht : t.WellFormed) :
    s.Faithful t ↔ ∃ a, a ∈ s ∧ a ∈ t := by
  rw [← intersect_iff_exists_mem hs ht]
  constructor
  · intro h
    exact intersectionFaithful_iff.mp h.intersection
  · intro h
    exact ⟨(complementFaithful_iff hs ht).mpr (Touches.of_intersect h), intersectionFaithful_iff.mpr h,
      testsFaithful hs ht⟩

variable {size : ℕ}

theorem setSize_space :
    (s.setSize size).2 = { s with endAddress := (s.baseAddress + size + addrCount - 1) % addrCount } := by
  simp only [setSize]
  split_ifs <;> rfl

theorem sizeThrows_iff_lt :
    s.SizeThrows size ↔
      (s.baseAddress + size) % addrCount < (s.baseAddress + size + addrCount - 1) % addrCount := by
  simp only [SizeThrows, setSize]
  split_ifs with h
  · exact iff_of_true rfl h
  · exact iff_of_false (fun heq => by cases heq) h

/-- The sum behind the last address wraps to 0 exactly where the last address is the last of all. -/
theorem sizeThrows_iff (hbase : s.baseAddress < addrCount) (hpos : 1 ≤ size) (hsize : size < addrCount) :
    s.SizeThrows size ↔ s.baseAddress + size = addrCount := by
  have hsum : (s.baseAddress + size) % addrCount =
      if s.baseAddress + size < addrCount then s.baseAddress + size else s.baseAddress + size - addrCount := by
    split_ifs with h
    · exact Nat.mod_eq_of_lt h
    · rw [Nat.mod_eq_sub_mod (by omega), Nat.mod_eq_of_lt (by omega)]
  have hlast : (s.baseAddress + size + addrCount - 1) % addrCount =
      if s.baseAddress + size ≤ addrCount then s.baseAddress + size - 1
      else s.baseAddress + size - 1 - addrCount := by
    rw [show s.baseAddress + size + addrCount - 1 = s.baseAddress + size - 1 + addrCount by omega,
      Nat.add_mod_right]
    split_ifs with h
    · exact Nat.mod_eq_of_lt (by omega)
    · rw [Nat.mod_eq_sub_mod (by omega), Nat.mod_eq_of_lt (by omega)]
  rw [sizeThrows_iff_lt, hsum, hlast]
  split_ifs <;> omega

theorem sizeFaithful_iff (hbase : s.baseAddress < addrCount) (hpos : 1 ≤ size) (hsize : size < addrCount) :
    s.SizeFaithful size ↔ s.baseAddress + size < addrCount := by
  have hthrows := sizeThrows_iff hbase hpos hsize
  constructor
  · intro h
    have hiff := h.throws_iff
    rw [hthrows] at hiff
    omega
  · intro hfits
    have hno : ¬ s.SizeThrows size := by
      rw [hthrows]
      omega
    have hlast : (s.baseAddress + size + addrCount - 1) % addrCount = s.baseAddress + size - 1 := by
      rw [show s.baseAddress + size + addrCount - 1 = s.baseAddress + size - 1 + addrCount by omega,
        Nat.add_mod_right, Nat.mod_eq_of_lt (by omega)]
    refine ⟨⟨fun h => absurd h hno, fun h => by omega⟩, fun h => absurd h hno, fun _ => Or.inl ?_⟩
    have hvalue : (s.baseAddress + size - 1 + addrCount - s.baseAddress + 1) % addrCount = size := by
      rw [show s.baseAddress + size - 1 + addrCount - s.baseAddress + 1 = size + addrCount by omega,
        Nat.add_mod_right, Nat.mod_eq_of_lt hsize]
    rw [setSize_space, hlast, AddrSpace.getSize]
    dsimp only
    rw [if_neg (by omega), hvalue]
    rfl

/-- The operations on two spaces are those of sets exactly when some address is in both, and `setSize` is right exactly
when the address after the last one is still an address. -/
theorem algebra_faithful_iff (hs : s.WellFormed) (ht : t.WellFormed) {r : AddrSpace} (hbase : r.baseAddress < addrCount)
    (hpos : 1 ≤ size) (hsize : size < addrCount) :
    (s.Faithful t ↔ ∃ a, a ∈ s ∧ a ∈ t) ∧ (r.SizeFaithful size ↔ r.baseAddress + size < addrCount) :=
  ⟨faithful_iff hs ht, sizeFaithful_iff hbase hpos hsize⟩

theorem algebra_faithful_page :
    ((⟨0x1000, 0x2fff⟩ : AddrSpace).Faithful ⟨0x2000, 0x3fff⟩ ↔
        ∃ a, a ∈ (⟨0x1000, 0x2fff⟩ : AddrSpace) ∧ a ∈ (⟨0x2000, 0x3fff⟩ : AddrSpace)) ∧
      ((⟨0x4000, 0⟩ : AddrSpace).SizeFaithful 0x100 ↔ 0x4000 + 0x100 < addrCount) :=
  algebra_faithful_iff (by decide) (by decide) (r := ⟨0x4000, 0⟩) (by decide) (by decide) (by decide)

/-- Two pages apart have the first and the gap as complement and address 0 as intersection, and the last page of the
address space can not be given its size: `setSize` throws, and has stored the last address by then. -/
theorem algebra_not_faithful :
    (⟨0x1000, 0x1fff⟩ : AddrSpace).relativeComplement ⟨0x3000, 0x3fff⟩ = [⟨0x1000, 0x2fff⟩] ∧
      (⟨0x1000, 0x1fff⟩ : AddrSpace).intersect ⟨0x3000, 0x3fff⟩ = false ∧
      0 ∈ (⟨0x1000, 0x1fff⟩ : AddrSpace).intersection ⟨0x3000, 0x3fff⟩ ∧
      ¬ (⟨0x1000, 0x1fff⟩ : AddrSpace).Faithful ⟨0x3000, 0x3fff⟩ ∧
      (⟨2 ^ 64 - 0x1000, 0⟩ : AddrSpace).setSize 0x1000 =
        (throw "setSize caused an overflow", ⟨2 ^ 64 - 0x1000, 2 ^ 64 - 1⟩) ∧
      ¬ (⟨2 ^ 64 - 0x1000, 0⟩ : AddrSpace).SizeFaithful 0x1000 := by
  refine ⟨by decide, by decide, by decide, ?_, by rfl, ?_⟩
  · intro h
    exact h.intersection.empty (by decide) 0 (by decide)
  · intro h
    exact absurd (h.throws_iff.mp (by rfl)) (by decide)

end AddrSpace

end Vpsim.Core
