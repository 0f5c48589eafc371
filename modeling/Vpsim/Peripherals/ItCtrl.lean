import Vpsim.Core.TargetIf
import Vpsim.Lib.ByteBuffer

/-!
# The interrupt controller with one line per word

A write to `ItCtrl` selects a line by its distance from the base address, without a check of its own: the line is in
range as long as the target only lets transactions in its range through.
-/

namespace Vpsim.Peripherals

open Vpsim.Core Vpsim.Core.AddrSpace Vpsim.Lib

/-- Number of values of a `uint32_t`. -/
def lineSpace : ℕ := 2 ^ 32

/-- `ItCtrl`, with the modules that lines are mapped to and their own line numbers. -/
structure ItCtrl (δ : Type) where
  target : TargetIf UInt8
  mLineCount : ℕ
  mLineSize : ℕ
  mModules : List (Option δ)
  mLines : List ℤ

/-- Why a write does not call a module: the length fails an assertion, the line is out of the arrays, or it is not
mapped. -/
inductive ItCtrlFault where
  | assertion
  | outOfRange
  | unmapped
  deriving DecidableEq

namespace ItCtrl

variable {δ : Type}

/-- The constructor. The product of the arguments is computed in 32 bits. -/
def build (lineCount lineSize : ℕ) (fill : ℕ → UInt8) : Except String (ItCtrl δ) := do
  let target ← TargetIf.build (lineCount * lineSize % lineSpace) false false fill
  return ⟨target, lineCount, lineSize, List.replicate lineCount none, List.replicate lineCount 0⟩

/-- `TargetLine`. -/
def targetLine (base lineSize address : ℕ) : ℕ := (address - base) / lineSize % lineSpace

/-- `write`, when `b_transport` calls it: the call of `update_irq`, with its module, value and line. -/
def write (c : ItCtrl δ) (address : ℕ) (data : List UInt8) : Except ItCtrlFault (δ × ℕ × ℤ) := do
  let line := targetLine c.target.space.baseAddress c.mLineSize address
  if data.length ≠ 4 then throw .assertion
  match c.mModules[line]?, c.mLines[line]? with
  | some (some module), some number => return (module, leValue data, number)
  | some none, some _ => throw .unmapped
  | _, _ => throw .outOfRange

/-- `Map`. -/
def map (c : ItCtrl δ) (lineIdx : ℕ) (module : δ) (lineNumber : ℤ) : ItCtrl δ :=
  { c with mModules := c.mModules.set lineIdx (some module), mLines := c.mLines.set lineIdx lineNumber }

/-- A transaction inside the range selects a line of the controller. -/
theorem targetLine_lt {base lineCount lineSize : ℕ} {trans : GenericPayload}
    (h : Inside base (lineCount * lineSize % lineSpace) trans) :
    targetLine base lineSize trans.address < lineCount := by
  obtain ⟨hlength, hbase, hend⟩ := h
  have hlt : trans.address - base < lineSize * lineCount := by
    have hmod := Nat.mod_le (lineCount * lineSize) lineSpace
    rw [Nat.mul_comm]
    omega
  exact Nat.lt_of_le_of_lt (Nat.mod_le _ _) (Nat.div_lt_of_lt_mul hlt)

/-- A controller with an entry for each line. -/
structure WellFormed (c : ItCtrl δ) : Prop where
  modules : c.mModules.length = c.mLineCount
  lines : c.mLines.length = c.mLineCount

/-- Mapping a line keeps the entries. -/
theorem WellFormed.map {c : ItCtrl δ} (h : c.WellFormed) (lineIdx : ℕ) (module : δ) (lineNumber : ℤ) :
    (c.map lineIdx module lineNumber).WellFormed :=
  ⟨List.length_set.trans h.modules, List.length_set.trans h.lines⟩

end ItCtrl

section Check

variable {α : Type} {size base : ℕ} {byteEnable dmiEnable : Bool} {fill : ℕ → α} {t : TargetIf α} {bases : List ℕ}
  {trans : GenericPayload}

/-- Both address checks of a target let through exactly the transactions in its range, so that a controller of this
size only selects its own lines, exactly when the transaction is none of those that are checked wrong. -/
theorem addressChecks_iff (hbuild : TargetIf.build size byteEnable dmiEnable fill = .ok t) (hsize : size < addrCount)
    (hbases : ∀ b ∈ bases, b < addrCount) (hbase : base < addrCount) (hfit : base + size ≤ addrCount)
    (haddress : trans.address < addrCount) (hlength : trans.dataLength < 2 ^ 32)
    (hvalid : ((bases.foldl TargetIf.setBaseAddress t).setBaseAddress base).OtherwiseValid trans) :
    (((bases.foldl TargetIf.setBaseAddress t).setBaseAddress base).Calls trans ↔ Inside base size trans) ∧
      (((bases.foldl TargetIf.setBaseAddress t).setBaseAddress base).Grants trans ↔ Inside base size trans) ∧
      (∀ lineCount lineSize, size = lineCount * lineSize % lineSpace →
        ((bases.foldl TargetIf.setBaseAddress t).setBaseAddress base).Calls trans →
          ItCtrl.targetLine base lineSize trans.address < lineCount) ↔
    CheckedRight base size trans := by
  obtain ⟨base', hmoved⟩ := (TargetIf.ranges_build hsize hbuild).foldl_setBaseAddress hbases
  have hranges := hmoved.setBaseAddress hbase
  rw [TargetIf.calls_iff hranges hvalid, TargetIf.grants_iff hranges,
    ← TargetIf.checks_iff hranges.size_lt hfit haddress hlength]
  constructor
  · exact fun h => ⟨h.1, h.2.1⟩
  · intro h
    refine ⟨h.1, h.2, fun lineCount lineSize hproduct hcalls => ?_⟩
    apply ItCtrl.targetLine_lt
    rw [← hproduct]
    exact h.1.1 hcalls

/-- A write of `length` bytes to an address. -/
def writeOf (address length : ℕ) : GenericPayload := ⟨.write, address, none, length, false, 0, true⟩

/-- A target of eight bytes. -/
def smallTarget : TargetIf UInt8 := ⟨⟨0, 8⟩, false, false, List.replicate 9 0⟩

/-- A transaction in the middle of a range is checked right. -/
theorem addressChecks_middle :
    ((smallTarget.setBaseAddress 0x1000).Calls (writeOf 0x1002 4) ↔ Inside 0x1000 8 (writeOf 0x1002 4)) ∧
      ((smallTarget.setBaseAddress 0x1000).Grants (writeOf 0x1002 4) ↔ Inside 0x1000 8 (writeOf 0x1002 4)) ∧
      ∀ lineCount lineSize, 8 = lineCount * lineSize % lineSpace →
        (smallTarget.setBaseAddress 0x1000).Calls (writeOf 0x1002 4) →
          ItCtrl.targetLine 0x1000 lineSize 0x1002 < lineCount := by
  have hbuild : TargetIf.build 8 false false (fun _ => (0 : UInt8)) = .ok smallTarget := rfl
  have hbases : ∀ b ∈ ([] : List ℕ), b < addrCount := nofun
  apply (addressChecks_iff hbuild (by decide) hbases (by decide) (by decide) (by decide) (by decide)
    ⟨.inr ⟨rfl, rfl⟩, .inr rfl⟩).2
  intro _
  rw [if_pos (by decide)]
  decide

/-- The byte behind the range is let through by both checks, and selects a line behind the last of two. -/
theorem not_addressChecks_behind :
    TargetIf.build 8 false false (fun _ => (0 : UInt8)) = .ok smallTarget ∧
      (smallTarget.setBaseAddress 0x1000).Calls (writeOf 0x1008 1) ∧
      (smallTarget.setBaseAddress 0x1000).Grants (writeOf 0x1008 1) ∧
      ¬ Inside 0x1000 8 (writeOf 0x1008 1) ∧ ItCtrl.targetLine 0x1000 4 0x1008 = 2 := by
  have hbuild : TargetIf.build 8 false false (fun _ => (0 : UInt8)) = .ok smallTarget := rfl
  have hranges := (TargetIf.ranges_build (by decide) hbuild).setBaseAddress (show 0x1000 < addrCount by decide)
  have hcalls : (smallTarget.setBaseAddress 0x1000).Calls (writeOf 0x1008 1) :=
    (TargetIf.calls_iff hranges ⟨.inr ⟨rfl, rfl⟩, .inr rfl⟩).2 (by decide)
  have hgrants : (smallTarget.setBaseAddress 0x1000).Grants (writeOf 0x1008 1) :=
    (TargetIf.grants_iff hranges).2 (by decide)
  refine ⟨hbuild, hcalls, hgrants, ?_, rfl⟩
  intro ⟨_, _, hend⟩
  exact absurd hend (by decide)

end Check

end Vpsim.Peripherals
