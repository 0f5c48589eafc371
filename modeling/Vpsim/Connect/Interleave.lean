import Vpsim.Memory.Geometry
import Mathlib.Data.Nat.Init
import Mathlib.Tactic.IntervalCases

/-!
# Routing of line addresses to interleaved home caches

`CoherenceInterconnect::sendTransactionToHome` picks a home from the distance to
`RamBaseAddr` in units of `SLCInterleaveLength`. Each home drops, right above the line
offset, as many address bits as `log2` of the number of homes. The two choices are
independent parameters; the last theorem says for which of them they select the same bits.
-/

namespace Vpsim.Connect

open Vpsim.Memory

/-- One entry of `HomeOutputs`: the address range and the port of a home. -/
structure HomeOutput where
  baseAddr : ℕ
  endAddr : ℕ
  port : ℕ
deriving DecidableEq, Repr

/-- The fields of `CoherenceInterconnect` that route a transaction to a home. -/
structure HomeRouting where
  homeOutputs : List HomeOutput
  homeIDs : ℕ
  slcInterleaveLength : ℕ
  ramBaseAddr : ℕ
  ramLastAddr : ℕ
deriving DecidableEq, Repr

/-- The home socket chosen by `sendTransactionToHome`; `none` is its failing assertion. -/
def sendTransactionToHome (c : HomeRouting) (addr len : ℕ) : Option ℕ :=
  if c.homeOutputs.length = 1 then some 0
  else if c.slcInterleaveLength ≠ 0 then
    if c.ramBaseAddr ≤ addr ∧ addr < c.ramLastAddr then
      some ((addr - c.ramBaseAddr) / c.slcInterleaveLength % c.homeIDs)
    else none
  else
    let last := (addr + len + 2 ^ addressBits - 1) % 2 ^ addressBits
    (c.homeOutputs.find? fun o => o.baseAddr ≤ addr ∧ last ≤ o.endAddr).map (·.port)

/-- A configuration of interleaved homes: every home has the geometry `home` and counts all
the homes, and the interleave length is `stride` lines. -/
structure InterleavedHomes where
  routing : HomeRouting
  home : Geometry
  stride : ℕ
  homes_pos : 0 < routing.homeIDs
  outputs_eq : routing.homeOutputs.length = routing.homeIDs
  interleaved_eq : home.nbInterleavedCaches = routing.homeIDs
  lineSize_pow : home.cacheLineSize = 2 ^ home.offsetBits
  sets_pow : home.nbSets = 2 ^ home.indexBits
  stride_pos : 0 < stride
  slc_eq : routing.slcInterleaveLength = stride * home.cacheLineSize

namespace InterleavedHomes

variable (c : InterleavedHomes)

/-- A line address of the RAM below 4 GiB. -/
structure IsRamLine (addr : ℕ) : Prop where
  aligned : c.home.cacheLineSize ∣ addr
  base_le : c.routing.ramBaseAddr ≤ addr
  lt_last : addr < c.routing.ramLastAddr
  lt_word : addr < 2 ^ 32

/-- No two lines of the RAM that reach the same home have the same index and tag there. -/
def NoAlias : Prop :=
  ∀ x y len, c.IsRamLine x → c.IsRamLine y → x ≠ y →
    sendTransactionToHome c.routing x len = sendTransactionToHome c.routing y len →
    (c.home.index x, c.home.tag x) ≠ (c.home.index y, c.home.tag y)

/-- Number of the first line of the RAM. -/
def firstLine : ℕ := (c.routing.ramBaseAddr + (c.home.cacheLineSize - 1)) / c.home.cacheLineSize

/-- Number of the line after the last line of the RAM below 4 GiB. -/
def endLine : ℕ :=
  (min c.routing.ramLastAddr (2 ^ 32) + (c.home.cacheLineSize - 1)) / c.home.cacheLineSize

/-- The lines a home does not tell apart come in aligned blocks of this many lines. -/
def blockLines : ℕ := 2 ^ log2 c.routing.homeIDs

/-- When the interleaving of the interconnect and of the homes select the same bits, or the
RAM is too small to show the difference. -/
def SelectsSameBits : Prop :=
  c.routing.homeIDs = 1 ∨ c.routing.slcInterleaveLength = c.home.cacheLineSize ∨
    c.endLine ≤ c.firstLine + 1 ∨
    (c.blockLines ∣ c.firstLine + 1 ∧
      (c.endLine ≤ c.firstLine + 2 ∨
        (c.routing.slcInterleaveLength = 2 * c.home.cacheLineSize ∧
          (c.endLine ≤ c.firstLine + 3 ∨ c.blockLines = 2))))

variable {c}

/-- Line sizes are positive. -/
theorem lineSize_pos : 0 < c.home.cacheLineSize := by
  rw [c.lineSize_pow]
  positivity

/-- A block has at most as many lines as there are homes. -/
theorem blockLines_le : c.blockLines ≤ c.routing.homeIDs :=
  two_pow_log2_le c.homes_pos.ne'

/-- With several homes a block has at least two lines. -/
theorem two_le_blockLines (h : c.routing.homeIDs ≠ 1) : 2 ≤ c.blockLines := by
  have hpos := c.homes_pos
  have hlog : log2 c.routing.homeIDs ≠ 0 := by
    rw [log2_eq, if_neg (by omega)]
    omega
  calc 2 = 2 ^ 1 := rfl
    _ ≤ c.blockLines := Nat.pow_le_pow_right (by decide) (Nat.one_le_iff_ne_zero.2 hlog)

/-- The interleave bits a home drops are those of one block. -/
theorem two_pow_indexShift :
    2 ^ c.home.indexShift = c.home.cacheLineSize * c.blockLines := by
  rw [Geometry.indexShift, pow_add, ← c.lineSize_pow, Geometry.interleaveBits, c.interleaved_eq,
    if_pos c.homes_pos, blockLines]

/-- A RAM line is the product of its number, in range, and the line size. -/
theorem isRamLine_mul_iff (q : ℕ) :
    c.IsRamLine (q * c.home.cacheLineSize) ↔ c.firstLine ≤ q ∧ q < c.endLine := by
  have hpos := c.lineSize_pos
  have hfirst : c.firstLine ≤ q ↔ c.routing.ramBaseAddr ≤ q * c.home.cacheLineSize := by
    rw [firstLine, Nat.div_le_iff_le_mul_add_pred hpos, Nat.mul_comm q]
    omega
  have hlast : q < c.endLine ↔ q * c.home.cacheLineSize < min c.routing.ramLastAddr (2 ^ 32) := by
    rw [endLine, ← Nat.succ_le_iff, Nat.le_div_iff_mul_le hpos, Nat.succ_mul]
    omega
  rw [hfirst, hlast, lt_min_iff]
  exact ⟨fun h => ⟨h.base_le, h.lt_last, h.lt_word⟩,
    fun h => ⟨Nat.dvd_mul_left _ _, h.1, h.2.1, h.2.2⟩⟩

/-- Two lines have the same index and tag exactly when they lie in the same block. -/
theorem index_tag_mul_iff {p q : ℕ} (hp : p < c.endLine) (hq : q < c.endLine) :
    (c.home.index (p * c.home.cacheLineSize) = c.home.index (q * c.home.cacheLineSize) ∧
        c.home.tag (p * c.home.cacheLineSize) = c.home.tag (q * c.home.cacheLineSize)) ↔
      p / c.blockLines = q / c.blockLines := by
  have hpos := c.lineSize_pos
  have hword {q : ℕ} (hq : q < c.endLine) : q * c.home.cacheLineSize < 2 ^ addressBits := by
    have hlt : q * c.home.cacheLineSize < min c.routing.ramLastAddr (2 ^ 32) := by
      rw [endLine, ← Nat.succ_le_iff, Nat.le_div_iff_mul_le hpos, Nat.succ_mul] at hq
      omega
    exact (hlt.trans_le (min_le_right _ _)).trans (by decide)
  rw [Geometry.index_tag_eq_iff (hword hp) (hword hq), two_pow_indexShift,
    ← Nat.div_div_eq_div_mul, ← Nat.div_div_eq_div_mul, Nat.mul_div_cancel _ hpos,
    Nat.mul_div_cancel _ hpos]

/-- With several homes, a RAM line goes to the home of its stride, counted from the first line. -/
theorem sendTransactionToHome_mul (h : c.routing.homeIDs ≠ 1) {q len : ℕ}
    (hq : c.firstLine ≤ q) (hend : q < c.endLine) :
    sendTransactionToHome c.routing (q * c.home.cacheLineSize) len =
      some ((q - c.firstLine) / c.stride % c.routing.homeIDs) := by
  have hpos := c.lineSize_pos
  have hline := (isRamLine_mul_iff q).2 ⟨hq, hend⟩
  have hslc : c.routing.slcInterleaveLength ≠ 0 := by
    rw [c.slc_eq]
    exact (Nat.mul_pos c.stride_pos hpos).ne'
  -- the first line starts less than one line above the base of the RAM
  have hfirst : c.routing.ramBaseAddr ≤ c.firstLine * c.home.cacheLineSize ∧
      c.firstLine * c.home.cacheLineSize < c.routing.ramBaseAddr + c.home.cacheLineSize := by
    have hdiv := Nat.div_add_mod (c.routing.ramBaseAddr + (c.home.cacheLineSize - 1))
      c.home.cacheLineSize
    have hmod := Nat.mod_lt (c.routing.ramBaseAddr + (c.home.cacheLineSize - 1)) hpos
    rw [firstLine, Nat.mul_comm]
    omega
  have hquot : (q * c.home.cacheLineSize - c.routing.ramBaseAddr) / c.home.cacheLineSize =
      q - c.firstLine := by
    obtain ⟨d, rfl⟩ := Nat.exists_eq_add_of_le hq
    rw [Nat.add_mul, Nat.add_sub_cancel_left, Nat.div_eq_iff hpos]
    have := hfirst
    constructor <;> omega
  have hstride : (q * c.home.cacheLineSize - c.routing.ramBaseAddr) /
      c.routing.slcInterleaveLength = (q - c.firstLine) / c.stride := by
    rw [c.slc_eq, Nat.mul_comm c.stride, ← Nat.div_div_eq_div_mul, hquot]
  rw [sendTransactionToHome, if_neg (by rw [c.outputs_eq]; exact h), if_pos hslc,
    if_pos ⟨hline.base_le, hline.lt_last⟩, hstride]

/-- The condition on line numbers that `NoAlias` comes down to when there are several homes:
no two lines of the RAM share both their block and the home of their stride. -/
theorem noAlias_iff_lines (h : c.routing.homeIDs ≠ 1) :
    c.NoAlias ↔ ∀ p q, c.firstLine ≤ p → p < q → q < c.endLine →
      p / c.blockLines = q / c.blockLines →
      (p - c.firstLine) / c.stride % c.routing.homeIDs ≠
        (q - c.firstLine) / c.stride % c.routing.homeIDs := by
  have hpos := c.lineSize_pos
  constructor
  · intro halias p q hp hpq hq hblock hhome
    have hne : p * c.home.cacheLineSize ≠ q * c.home.cacheLineSize :=
      (Nat.mul_lt_mul_of_pos_right hpq hpos).ne
    refine halias _ _ 0 ((isRamLine_mul_iff p).2 ⟨hp, by omega⟩)
      ((isRamLine_mul_iff q).2 ⟨by omega, hq⟩) hne ?_ ?_
    · rw [sendTransactionToHome_mul h hp (by omega), sendTransactionToHome_mul h (by omega) hq, hhome]
    · have := (index_tag_mul_iff (by omega) hq).2 hblock
      rw [this.1, this.2]
  · intro hlines x y len hx hy hne hhome hpair
    obtain ⟨p, rfl⟩ := exists_eq_mul_left_of_dvd hx.aligned
    obtain ⟨q, rfl⟩ := exists_eq_mul_left_of_dvd hy.aligned
    obtain ⟨hp, hpend⟩ := (isRamLine_mul_iff p).1 hx
    obtain ⟨hq, hqend⟩ := (isRamLine_mul_iff q).1 hy
    rw [sendTransactionToHome_mul h hp hpend, sendTransactionToHome_mul h hq hqend,
      Option.some.injEq] at hhome
    rw [Prod.mk.injEq, index_tag_mul_iff hpend hqend] at hpair
    rcases lt_trichotomy p q with hlt | rfl | hlt
    · exact hlines p q hp hlt hqend hpair hhome
    · exact hne rfl
    · exact hlines q p hq hlt hpend hpair.symm hhome.symm

/-- A single home is reached by every line and drops no bit. -/
theorem noAlias_of_single (h : c.routing.homeIDs = 1) : c.NoAlias := by
  intro x y len hx hy hne _ hpair
  have hshift : c.home.indexShift = c.home.offsetBits :=
    Geometry.indexShift_eq (by rw [c.interleaved_eq, h])
  have hword {z : ℕ} (hz : c.IsRamLine z) : z < 2 ^ addressBits := hz.lt_word.trans (by decide)
  have hdvd {z : ℕ} (hz : c.IsRamLine z) : 2 ^ c.home.offsetBits ∣ z := by
    rw [← c.lineSize_pow]
    exact hz.aligned
  rw [Prod.mk.injEq, Geometry.index_tag_eq_iff (hword hx) (hword hy), hshift] at hpair
  exact hne (Lib.eq_of_div_eq (hdvd hx) (hdvd hy) hpair)

end InterleavedHomes

/-- Two lines of one block whose strides go to the same home lie in the same stride, once a
stride has at least two lines. -/
theorem stride_eq_of_home_eq {n block stride u v : ℕ} (hstride : 2 ≤ stride) (hblock : 2 ≤ block)
    (hle : block ≤ n) (huv : u ≤ v) (hclose : v < u + block)
    (hhome : u / stride % n = v / stride % n) : u / stride = v / stride := by
  have hmono : u / stride ≤ v / stride := Nat.div_le_div_right huv
  have hgap : v / stride < u / stride + n := by
    have hspread : v / stride ≤ (u + (block - 1)) / stride := Nat.div_le_div_right (by omega)
    have hsum : (u + (block - 1)) / stride ≤ u / stride + (block - 1) / stride + 1 := by
      rw [Nat.add_div (by omega)]
      split <;> omega
    have hhalf : (block - 1) / stride ≤ (block - 1) / 2 := Nat.div_le_div_left hstride (by decide)
    omega
  obtain ⟨d, hd⟩ := Nat.exists_eq_add_of_le hmono
  have hzero : d % n = 0 := by
    have := Nat.sub_mod_eq_zero_of_mod_eq hhome.symm
    rwa [hd, Nat.add_sub_cancel_left] at this
  rw [Nat.mod_eq_of_lt (by omega)] at hzero
  omega

/-- Neighbouring lines are in the same block exactly when the upper one does not start a block. -/
theorem succ_div_eq_iff {q block : ℕ} : q / block = (q + 1) / block ↔ ¬ block ∣ q + 1 := by
  rw [Nat.succ_div]
  split <;> simp_all

namespace InterleavedHomes

variable {c : InterleavedHomes}

/-- Two neighbouring lines of one block and one stride are confused by their home. -/
theorem not_noAlias_of_neighbours (h : c.routing.homeIDs ≠ 1) {q : ℕ} (hq : c.firstLine ≤ q)
    (hend : q + 1 < c.endLine) (hblock : ¬ c.blockLines ∣ q + 1)
    (hstride : (q - c.firstLine) / c.stride = (q + 1 - c.firstLine) / c.stride) : ¬ c.NoAlias := by
  rw [noAlias_iff_lines h]
  intro hlines
  exact hlines q (q + 1) hq (Nat.lt_succ_self q) hend (succ_div_eq_iff.2 hblock) (by rw [hstride])

/-- Each way of failing the condition leaves two neighbouring lines that alias. -/
theorem selectsSameBits_of_noAlias (hsingle : c.routing.homeIDs ≠ 1) (halias : c.NoAlias) :
    c.stride = 1 ∨ c.endLine ≤ c.firstLine + 1 ∨
      (c.blockLines ∣ c.firstLine + 1 ∧ (c.endLine ≤ c.firstLine + 2 ∨
        (c.stride = 2 ∧ (c.endLine ≤ c.firstLine + 3 ∨ c.blockLines = 2)))) := by
  have hblock := two_le_blockLines hsingle
  have hstride := c.stride_pos
  by_contra hcond
  push Not at hcond
  obtain ⟨hstride1, hsize, hrest⟩ := hcond
  by_cases hdvd : c.blockLines ∣ c.firstLine + 1
  · obtain ⟨hsize2, hstride2⟩ := hrest hdvd
    by_cases htwo : c.stride = 2
    · obtain ⟨hsize3, hblock2⟩ := hstride2 htwo
      refine not_noAlias_of_neighbours hsingle (q := c.firstLine + 2) (by omega) (by omega) ?_ ?_ halias
      · intro hdvd3
        have hdvd2 : c.blockLines ∣ 2 := (Nat.dvd_add_right hdvd).1 (by simpa [Nat.add_assoc] using hdvd3)
        have := Nat.le_of_dvd (by decide) hdvd2
        omega
      · rw [htwo]
        omega
    · refine not_noAlias_of_neighbours hsingle (q := c.firstLine + 1) (by omega) (by omega) ?_ ?_ halias
      · intro hdvd2
        have := Nat.le_of_dvd (by decide) ((Nat.dvd_add_right hdvd).1 hdvd2)
        omega
      · rw [Nat.div_eq_of_lt (by omega), Nat.div_eq_of_lt (by omega)]
  · refine not_noAlias_of_neighbours hsingle le_rfl (by omega) hdvd ?_ halias
    rw [Nat.div_eq_of_lt (by omega), Nat.div_eq_of_lt (by omega)]

/-- Under the condition, lines of one block that go to the same home are the same. -/
theorem noAlias_of_selectsSameBits (hsingle : c.routing.homeIDs ≠ 1)
    (hcond : c.stride = 1 ∨ c.endLine ≤ c.firstLine + 1 ∨
      (c.blockLines ∣ c.firstLine + 1 ∧ (c.endLine ≤ c.firstLine + 2 ∨
        (c.stride = 2 ∧ (c.endLine ≤ c.firstLine + 3 ∨ c.blockLines = 2))))) : c.NoAlias := by
  have hblock := two_le_blockLines hsingle
  have hle := c.blockLines_le
  have hstride := c.stride_pos
  rw [noAlias_iff_lines hsingle]
  intro p q hp hpq hq hsame hhome
  have hclose : q < p + c.blockLines := by
    have hp' := Nat.div_add_mod p c.blockLines
    have hq' := Nat.div_add_mod q c.blockLines
    have hmod := Nat.mod_lt q (show 0 < c.blockLines by omega)
    rw [← hsame] at hq'
    omega
  by_cases hone : c.stride = 1
  · rw [hone, Nat.div_one, Nat.div_one] at hhome
    have hzero := Nat.sub_mod_eq_zero_of_mod_eq hhome.symm
    rw [Nat.mod_eq_of_lt (by omega)] at hzero
    omega
  -- strides of two lines or more: the two lines lie in the same stride
  have hsameStride := stride_eq_of_home_eq (u := p - c.firstLine) (v := q - c.firstLine)
    (by omega) hblock hle (by omega) (by omega) hhome
  rcases hcond with h | h | ⟨hdvd, hcond⟩
  · exact hone h
  · omega
  have hfirst : ¬ (p = c.firstLine ∧ q = c.firstLine + 1) := by
    rintro ⟨rfl, rfl⟩
    exact succ_div_eq_iff.1 hsame hdvd
  rcases hcond with h | ⟨htwo, h | htwo'⟩
  · omega
  · rw [htwo] at hsameStride
    omega
  · rw [htwo] at hsameStride
    rw [htwo'] at hsame hdvd
    omega

/-- Interleaved homes keep the lines they serve apart exactly when the interconnect and the
homes select the same address bits, or the RAM is too small to show the difference. -/
theorem noAlias_iff_selectsSameBits (c : InterleavedHomes) : c.NoAlias ↔ c.SelectsSameBits := by
  have hpos := c.lineSize_pos
  have hslc (m : ℕ) : c.routing.slcInterleaveLength = m * c.home.cacheLineSize ↔ c.stride = m := by
    rw [c.slc_eq, Nat.mul_left_inj hpos.ne']
  have hone : c.routing.slcInterleaveLength = c.home.cacheLineSize ↔ c.stride = 1 := by
    rw [← hslc 1, Nat.one_mul]
  unfold SelectsSameBits
  rw [hone, hslc 2]
  by_cases hsingle : c.routing.homeIDs = 1
  · exact ⟨fun _ => .inl hsingle, fun _ => noAlias_of_single hsingle⟩
  · exact ⟨fun h => .inr (selectsSameBits_of_noAlias hsingle h),
      fun h => noAlias_of_selectsSameBits hsingle (h.resolve_left hsingle)⟩

/-- Two homes of one set each with 64-byte lines, interleaved every 128 bytes from address 0. -/
def twoHomes : InterleavedHomes where
  routing :=
    { homeOutputs := [⟨0, 0xffff, 0⟩, ⟨0, 0xffff, 1⟩], homeIDs := 2, slcInterleaveLength := 128,
      ramBaseAddr := 0, ramLastAddr := 0x10000 }
  home := { cacheSize := 256, cacheLineSize := 64, associativity := 4, nbInterleavedCaches := 2 }
  stride := 2
  homes_pos := by decide
  outputs_eq := by decide
  interleaved_eq := by decide
  lineSize_pow := by decide
  sets_pow := by decide
  stride_pos := by decide
  slc_eq := by decide

/-- The lines at 0 and 64 reach the same home of `twoHomes` with the same index and tag. -/
theorem twoHomes_alias : ¬ ∀ c : InterleavedHomes, c.NoAlias := by
  intro h
  refine h twoHomes 0 64 64 ⟨by decide, by decide, by decide, by decide⟩
    ⟨by decide, by decide, by decide, by decide⟩ (by decide) (by decide) (by decide)

end InterleavedHomes

end Vpsim.Connect
