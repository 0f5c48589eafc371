import Vpsim.Core.AddrSpace

/-!
# The range of a target

`TargetIf` keeps its address range as an `AddrSpace` that it builds from a size, and local memory of as many
elements as the range has addresses. `b_transport` and `get_direct_mem_ptr` check each on its own whether a
transaction lies in the range. All sums are computed in 64 bits.
-/

namespace Vpsim.Core

namespace AddrSpace

/-- `AddrSpace(Size)`: the size becomes the last address. -/
def ofSize (size : ℕ) : AddrSpace := ⟨0, size⟩

/-- `setBaseAddress`. -/
def setBaseAddress (s : AddrSpace) (baseAddress : ℕ) : AddrSpace where
  baseAddress := baseAddress
  endAddress := (s.endAddress + (baseAddress + addrCount - s.baseAddress) % addrCount) % addrCount

/-- `getSize`. -/
def getSize (s : AddrSpace) : Except String ℕ :=
  if s.baseAddress = 0 ∧ s.endAddress = addrCount - 1 then throw "Size can not be stored in a uint64_t"
  else return (s.endAddress + addrCount - s.baseAddress + 1) % addrCount

end AddrSpace

open AddrSpace

/-- `tlm_response_status`. -/
inductive TlmResponse where
  | ok
  | addressError
  | burstError
  | byteEnableError
  | commandError
  deriving DecidableEq

/-- `tlm_command`. -/
inductive TlmCommand where
  | read
  | write
  | ignore
  deriving DecidableEq

/-- `tlm_generic_payload`, with the bytes behind the data pointer if it is not null, and whether the option is
`TLM_MIN_PAYLOAD`. -/
structure GenericPayload where
  command : TlmCommand
  address : ℕ
  dataPtr : Option (List UInt8)
  dataLength : ℕ
  hasByteEnables : Bool
  byteEnableLength : ℕ
  minPayload : Bool

/-- What `get_direct_mem_ptr` fills in. -/
structure TlmDmi where
  allowReadWrite : Bool
  startAddress : ℕ
  endAddress : ℕ
  deriving DecidableEq

/-- `TargetIf`. -/
structure TargetIf (α : Type) where
  space : AddrSpace
  mByteEnable : Bool
  mDmiEnable : Bool
  mLocalMem : List α

namespace TargetIf

variable {α : Type}

/-- The constructor. The local memory has arbitrary contents. -/
def build (size : ℕ) (byteEnable dmiEnable : Bool) (fill : ℕ → α) : Except String (TargetIf α) := do
  let length ← (ofSize size).getSize
  return ⟨ofSize size, byteEnable, dmiEnable, (List.range length).map fill⟩

/-- `setBaseAddress`. -/
def setBaseAddress (t : TargetIf α) (baseAddress : ℕ) : TargetIf α :=
  { t with space := t.space.setBaseAddress baseAddress }

/-- `b_transport` up to the call of `CoreFunction`: the error response, or nothing if the callback of the command is
called. -/
def checkTransport (t : TargetIf α) (trans : GenericPayload) : Except String (Option TlmResponse) := do
  let base := t.space.baseAddress
  let size ← t.space.getSize
  if trans.address < base ∨ (base + size) % addrCount < (trans.address + trans.dataLength) % addrCount then
    return some .addressError
  else if size < trans.dataLength ∨ trans.dataLength = 0 then return some .burstError
  else if !t.mByteEnable ∧ (trans.hasByteEnables ∨ trans.byteEnableLength ≠ 0) then return some .byteEnableError
  else if trans.command ≠ .write ∧ trans.command ≠ .read then return some .commandError
  else return none

/-- `get_direct_mem_ptr`: the response, the result, and what it fills in. -/
def getDirectMemPtr (t : TargetIf α) (trans : GenericPayload) : TlmResponse × Bool × Option TlmDmi :=
  if trans.address < t.space.baseAddress ∨
      t.space.endAddress < (trans.address + trans.dataLength + addrCount - 1) % addrCount then
    (.addressError, false, none)
  else (.ok, t.mDmiEnable, some ⟨t.mDmiEnable, t.space.baseAddress, t.space.endAddress⟩)

/-- The callback of the command is called. -/
def Calls (t : TargetIf α) (trans : GenericPayload) : Prop := t.checkTransport trans = .ok none

/-- `get_direct_mem_ptr` accepts the address. -/
def Grants (t : TargetIf α) (trans : GenericPayload) : Prop := (t.getDirectMemPtr trans).1 = .ok

/-- The rest of a transaction is as the target supports it. -/
def OtherwiseValid (t : TargetIf α) (trans : GenericPayload) : Prop :=
  (t.mByteEnable = true ∨ trans.hasByteEnables = false ∧ trans.byteEnableLength = 0) ∧
    (trans.command = .read ∨ trans.command = .write)

end TargetIf

/-- The bytes of a transaction are at least one, and among the `size` bytes from `base` on. -/
def Inside (base size : ℕ) (trans : GenericPayload) : Prop :=
  1 ≤ trans.dataLength ∧ base ≤ trans.address ∧ trans.address + trans.dataLength ≤ base + size

/-- A transaction from an address at or above the base is handled right. Where one more byte than the size ends below
`2 ^ 64`, it does not end with that byte, it is not empty at an address up to the end of that byte (except at 0), and
if it ends at `2 ^ 64` it is longer than the range, and if it ends behind it is not back in the range. Where the range
itself ends at `2 ^ 64`, it is empty or ends behind the first byte after. Where it ends one byte before, never. -/
def CheckedRight (base size : ℕ) (trans : GenericPayload) : Prop :=
  base ≤ trans.address →
    if base + size + 1 < addrCount then
      trans.address + trans.dataLength ≠ base + size + 1 ∧
        (trans.dataLength = 0 → trans.address = 0 ∨ base + size + 1 < trans.address) ∧
        (trans.address + trans.dataLength = addrCount → size + 1 < trans.dataLength) ∧
        (addrCount < trans.address + trans.dataLength →
          addrCount + base + size + 1 < trans.address + trans.dataLength)
    else base + size = addrCount ∧
      (trans.dataLength = 0 ∨ addrCount + 1 < trans.address + trans.dataLength)

namespace TargetIf

variable {α : Type} {size : ℕ} {byteEnable dmiEnable : Bool} {fill : ℕ → α} {t : TargetIf α}

/-- The range of a target that was built and then moved: it has one address more than its size. -/
structure Ranges (size base : ℕ) (t : TargetIf α) : Prop where
  size_lt : size + 1 < addrCount
  baseAddress : t.space.baseAddress = base
  base_lt : base < addrCount
  endAddress : t.space.endAddress = (base + size) % addrCount

/-- A target that was built ranges over its addresses from zero on. -/
theorem ranges_build (hsize : size < addrCount) (h : build size byteEnable dmiEnable fill = .ok t) :
    Ranges size 0 t := by
  unfold build AddrSpace.getSize at h
  by_cases hmax : (ofSize size).baseAddress = 0 ∧ (ofSize size).endAddress = addrCount - 1
  · rw [if_pos hmax] at h
    cases h
  · rw [if_neg hmax] at h
    cases h
    have hne : size ≠ addrCount - 1 := fun heq => hmax ⟨rfl, heq⟩
    refine ⟨by omega, rfl, by decide, ?_⟩
    rw [Nat.zero_add, Nat.mod_eq_of_lt hsize]
    rfl

/-- A target that is moved ranges over as many addresses from its new base on. -/
theorem Ranges.setBaseAddress {base : ℕ} (h : Ranges size base t) {base' : ℕ} (hbase : base' < addrCount) :
    Ranges size base' (t.setBaseAddress base') := by
  refine ⟨h.size_lt, rfl, hbase, ?_⟩
  have hend : (t.setBaseAddress base').space.endAddress =
      (t.space.endAddress + (base' + addrCount - t.space.baseAddress) % addrCount) % addrCount := rfl
  have hbase_lt := h.base_lt
  rw [hend, h.endAddress, h.baseAddress, Nat.add_mod_mod, Nat.mod_add_mod]
  have hsum : base + size + (base' + addrCount - base) = base' + size + addrCount := by omega
  rw [hsum, Nat.add_mod_right]

/-- A target that is moved several times still ranges over as many addresses. -/
theorem Ranges.foldl_setBaseAddress {base : ℕ} (h : Ranges size base t) {bases : List ℕ}
    (hbases : ∀ b ∈ bases, b < addrCount) :
    ∃ base', Ranges size base' (bases.foldl TargetIf.setBaseAddress t) := by
  induction bases generalizing base t with
  | nil => exact ⟨base, h⟩
  | cons b bases ih =>
    exact ih (h.setBaseAddress (hbases b List.mem_cons_self)) fun b' hb' => hbases b' (List.mem_cons_of_mem _ hb')

/-- The size of a target counts one address too many. -/
theorem Ranges.getSize {base : ℕ} (h : Ranges size base t) : t.space.getSize = .ok (size + 1) := by
  have hsize := h.size_lt
  have hbase := h.base_lt
  unfold AddrSpace.getSize
  rw [h.baseAddress, h.endAddress]
  have hnot : ¬ (base = 0 ∧ (base + size) % addrCount = addrCount - 1) := by
    intro ⟨hzero, hend⟩
    rw [hzero, Nat.zero_add, Nat.mod_eq_of_lt (Nat.lt_of_succ_lt hsize)] at hend
    omega
  rw [if_neg hnot]
  have hvalue : ((base + size) % addrCount + addrCount - base + 1) % addrCount = size + 1 := by
    unfold addrCount at *
    omega
  exact congrArg Except.ok hvalue

variable {base : ℕ} {trans : GenericPayload}

/-- The callback is called exactly when the transaction starts in range and its wrapping end is not
behind that of the size. -/
theorem calls_iff (h : Ranges size base t) (hvalid : t.OtherwiseValid trans) :
    t.Calls trans ↔ base ≤ trans.address ∧
      (trans.address + trans.dataLength) % addrCount ≤ (base + (size + 1)) % addrCount ∧
      trans.dataLength ≤ size + 1 ∧ 1 ≤ trans.dataLength := by
  obtain ⟨henables, hcommand⟩ := hvalid
  have hno : ¬ ((!t.mByteEnable) = true ∧ (trans.hasByteEnables = true ∨ trans.byteEnableLength ≠ 0)) := by
    intro ⟨hdisabled, hused⟩
    obtain henabled | ⟨hnone, hzero⟩ := henables
    · rw [henabled] at hdisabled
      cases hdisabled
    · obtain hused | hused := hused
      · cases hnone.symm.trans hused
      · exact hused hzero
  have hknown : ¬ (trans.command ≠ .write ∧ trans.command ≠ .read) := fun hunknown =>
    hcommand.elim hunknown.2 hunknown.1
  unfold Calls checkTransport
  rw [h.getSize, h.baseAddress]
  change (if _ then _ else _) = _ ↔ _
  by_cases haddress : trans.address < base ∨
      (base + (size + 1)) % addrCount < (trans.address + trans.dataLength) % addrCount
  · rw [if_pos haddress]
    apply iff_of_false nofun
    omega
  · rw [if_neg haddress]
    by_cases hburst : size + 1 < trans.dataLength ∨ trans.dataLength = 0
    · rw [if_pos hburst]
      apply iff_of_false nofun
      omega
    · rw [if_neg hburst, if_neg hno, if_neg hknown]
      apply iff_of_true rfl
      omega

/-- A transaction that ends too high is refused with an address error. -/
theorem checkTransport_addressError (h : Ranges size base t)
    (hend : (base + (size + 1)) % addrCount < (trans.address + trans.dataLength) % addrCount) :
    t.checkTransport trans = .ok (some .addressError) := by
  unfold checkTransport
  rw [h.getSize, h.baseAddress]
  change (if _ then _ else _) = _
  rw [if_pos (.inr hend)]
  rfl

/-- The address is accepted exactly when it is not below the base and the wrapping last byte not above
the end. -/
theorem grants_iff (h : Ranges size base t) :
    t.Grants trans ↔ base ≤ trans.address ∧
      (trans.address + trans.dataLength + addrCount - 1) % addrCount ≤ (base + size) % addrCount := by
  unfold Grants getDirectMemPtr
  rw [h.baseAddress, h.endAddress]
  by_cases haddress : trans.address < base ∨
      (base + size) % addrCount < (trans.address + trans.dataLength + addrCount - 1) % addrCount
  · rw [if_pos haddress]
    apply iff_of_false nofun
    omega
  · rw [if_neg haddress]
    apply iff_of_true rfl
    omega

/-- Both checks are right exactly for the transactions that are checked right. -/
theorem checks_iff (hsize : size + 1 < addrCount) (hfit : base + size ≤ addrCount) (haddress : trans.address < addrCount)
    (hlength : trans.dataLength < 2 ^ 32) :
    ((base ≤ trans.address ∧ (trans.address + trans.dataLength) % addrCount ≤ (base + (size + 1)) % addrCount ∧
        trans.dataLength ≤ size + 1 ∧ 1 ≤ trans.dataLength) ↔ Inside base size trans) ∧
      ((base ≤ trans.address ∧
        (trans.address + trans.dataLength + addrCount - 1) % addrCount ≤ (base + size) % addrCount) ↔
          Inside base size trans) ↔
    CheckedRight base size trans := by
  unfold CheckedRight Inside
  by_cases hbase : base ≤ trans.address
  · rw [forall_prop_of_true hbase]
    by_cases hroom : base + size + 1 < addrCount
    · rw [if_pos hroom]
      unfold addrCount at *
      omega
    · rw [if_neg hroom]
      unfold addrCount at *
      omega
  · exact iff_of_true ⟨by omega, by omega⟩ fun h => absurd h hbase

end TargetIf

end Vpsim.Core
