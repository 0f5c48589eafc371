import Vpsim.Core.TargetIf
import Vpsim.Lib.ByteBuffer

/-!
# The main memory

`memory` is a target whose callbacks copy between the data of a transaction and the local memory, from the distance
of the address from the base address on. `transport_dbg` goes by the quarter of the address instead, and does its own
check.
-/

namespace Vpsim.Memory

open Vpsim.Core Vpsim.Core.AddrSpace Vpsim.Lib

/-- Why a call does not return: an exception, or a copy beyond the local memory. -/
inductive MemoryFault where
  | overflow (what : String)
  | inactive
  | outOfBounds
  deriving DecidableEq

/-- What a call returns: the transaction with its data, and the memory. -/
structure Accessed where
  trans : GenericPayload
  memory : TargetIf UInt8

/-- The bytes of a memory that a copy reads. -/
def copyFrom (m : TargetIf UInt8) (offset len : ℕ) : Except MemoryFault (List UInt8) :=
  if offset + len ≤ m.mLocalMem.length then return slice offset len m.mLocalMem else throw .outOfBounds

/-- A memory after bytes were copied to it. -/
def copyTo (m : TargetIf UInt8) (offset : ℕ) (bytes : List UInt8) : Except MemoryFault (TargetIf UInt8) :=
  if offset + bytes.length ≤ m.mLocalMem.length then return { m with mLocalMem := patch offset bytes m.mLocalMem }
  else throw .outOfBounds

/-- `memory::read`. -/
def read (m : TargetIf UInt8) (trans : GenericPayload) : Except MemoryFault Accessed := do
  match trans.dataPtr with
  | none => return ⟨trans, m⟩
  | some ptr =>
    let tmp ← copyFrom m (trans.address - m.space.baseAddress) trans.dataLength
    return ⟨{ trans with dataPtr := some (patch 0 tmp ptr) }, m⟩

/-- `memory::write`. -/
def write (m : TargetIf UInt8) (trans : GenericPayload) : Except MemoryFault Accessed := do
  match trans.dataPtr with
  | none => return ⟨trans, m⟩
  | some ptr =>
    let m ← copyTo m (trans.address - m.space.baseAddress) (ptr.take trans.dataLength)
    return ⟨trans, m⟩

/-- `CoreFunction`. -/
def coreFunction (m : TargetIf UInt8) (trans : GenericPayload) : Except MemoryFault Accessed :=
  if trans.command = .write then write m trans else read m trans

/-- `b_transport`, with the response that it sets. -/
def bTransport (m : TargetIf UInt8) (trans : GenericPayload) : Except MemoryFault (TlmResponse × Accessed) :=
  match m.checkTransport trans with
  | .error what => throw (.overflow what)
  | .ok (some response) => return (response, ⟨trans, m⟩)
  | .ok none => (coreFunction m trans).map (Prod.mk .ok)

/-- The copy of `transport_dbg`. -/
def debugCopy (m : TargetIf UInt8) (trans : GenericPayload) (addr : ℕ) : Except MemoryFault Accessed := do
  let ptr := trans.dataPtr.getD []
  match trans.command with
  | .read =>
    let bytes ← copyFrom m addr trans.dataLength
    return ⟨{ trans with dataPtr := some (patch 0 bytes ptr) }, m⟩
  | .write =>
    let m ← copyTo m addr (ptr.take trans.dataLength)
    return ⟨trans, m⟩
  | .ignore => return ⟨trans, m⟩

/-- `transport_dbg`, with the number of bytes that it returns. -/
def transportDbg (m : TargetIf UInt8) (trans : GenericPayload) : Except MemoryFault (ℕ × TlmResponse × Accessed) := do
  if !trans.minPayload then throw .inactive
  else
    match m.space.getSize with
    | .error what => throw (.overflow what)
    | .ok size =>
      let addr := trans.address / 4
      if size ≤ addr ∨ size ≤ (addr + trans.dataLength) % addrCount then return (0, .addressError, ⟨trans, m⟩)
      else
        let accessed ← debugCopy m trans addr
        return (trans.dataLength, .ok, accessed)

/-- A write of bytes to an address. -/
def writeOf (address : ℕ) (bytes : List UInt8) : GenericPayload :=
  ⟨.write, address, some bytes, bytes.length, false, 0, true⟩

/-- A read from an address into a buffer. -/
def readOf (address : ℕ) (buffer : List UInt8) : GenericPayload :=
  ⟨.read, address, some buffer, buffer.length, false, 0, true⟩

/-- What is written through `b_transport` is read through `transport_dbg`. -/
def DebugReads (m : TargetIf UInt8) (address : ℕ) (bytes buffer : List UInt8) : Prop :=
  ∃ written, bTransport m (writeOf address bytes) = .ok (.ok, written) ∧
    ∃ seen, transportDbg written.memory (readOf address buffer) = .ok (buffer.length, .ok, seen) ∧
      seen.trans.dataPtr = some bytes

/-- What is written through `transport_dbg` is read through `b_transport`. -/
def DebugWrites (m : TargetIf UInt8) (address : ℕ) (bytes buffer : List UInt8) : Prop :=
  ∃ written, transportDbg m (writeOf address bytes) = .ok (bytes.length, .ok, written) ∧
    ∃ seen, bTransport written.memory (readOf address buffer) = .ok (.ok, seen) ∧ seen.trans.dataPtr = some bytes

/-- Both ways agree on `n` bytes from an address on, whatever is in the memory. -/
def DebugAgrees (m : TargetIf UInt8) (address n : ℕ) : Prop :=
  ∀ (mem bytes buffer : List UInt8), mem.length = m.mLocalMem.length → bytes.length = n → buffer.length = n →
    DebugReads { m with mLocalMem := mem } address bytes buffer ∧
      DebugWrites { m with mLocalMem := mem } address bytes buffer

/-! ## Accesses in range -/

variable {size base address n : ℕ} {m : TargetIf UInt8}

/-- A memory with its local memory. -/
structure IsMemory (size base : ℕ) (m : TargetIf UInt8) : Prop extends TargetIf.Ranges size base m where
  length : m.mLocalMem.length = size + 1

/-- Whether `b_transport` lets an access in the range through. -/
def Through (size base address n : ℕ) : Prop := (address + n) % addrCount ≤ (base + (size + 1)) % addrCount

/-- A transaction that is let through is carried out and answered with ok. -/
theorem bTransport_of_through {trans : GenericPayload} (h : IsMemory size base m)
    (hvalid : m.OtherwiseValid trans) (hlength : 1 ≤ trans.dataLength) (hbase : base ≤ trans.address)
    (hend : trans.address + trans.dataLength ≤ base + size)
    (hthrough : Through size base trans.address trans.dataLength) :
    bTransport m trans = (coreFunction m trans).map (Prod.mk .ok) := by
  have hcalls := (TargetIf.calls_iff h.toRanges hvalid).2 ⟨hbase, hthrough, by omega, hlength⟩
  unfold TargetIf.Calls at hcalls
  unfold bTransport
  rw [hcalls]

/-- A transaction that is not let through is answered with an address error and changes nothing. -/
theorem bTransport_of_not_through {trans : GenericPayload} (h : IsMemory size base m)
    (hthrough : ¬ Through size base trans.address trans.dataLength) :
    bTransport m trans = .ok (.addressError, ⟨trans, m⟩) := by
  have hcheck := TargetIf.checkTransport_addressError h.toRanges (Nat.lt_of_not_le hthrough)
  unfold bTransport
  rw [hcheck]
  rfl

/-- A write in the range that is let through stores its bytes at the distance from the base. -/
theorem bTransport_write (h : IsMemory size base m) {bytes : List UInt8} (hlength : 1 ≤ bytes.length)
    (hbase : base ≤ address) (hend : address + bytes.length ≤ base + size)
    (hthrough : Through size base address bytes.length) :
    bTransport m (writeOf address bytes) =
      .ok (.ok, ⟨writeOf address bytes, { m with mLocalMem := patch (address - base) bytes m.mLocalMem }⟩) := by
  have hfits : address - base + bytes.length ≤ m.mLocalMem.length := by
    rw [h.length]
    omega
  have hcopy : copyTo m (address - base) bytes = .ok { m with mLocalMem := patch (address - base) bytes m.mLocalMem } :=
    if_pos hfits
  have hwrite : coreFunction m (writeOf address bytes) =
      .ok ⟨writeOf address bytes, { m with mLocalMem := patch (address - base) bytes m.mLocalMem }⟩ := by
    unfold coreFunction writeOf
    rw [if_pos rfl]
    unfold write
    dsimp only
    rw [List.take_length, h.baseAddress, hcopy]
    rfl
  rw [bTransport_of_through h ⟨.inr ⟨rfl, rfl⟩, .inr rfl⟩ hlength hbase hend hthrough, hwrite]
  rfl

/-- A read in the range that is let through returns the bytes at the distance from the base. -/
theorem bTransport_read (h : IsMemory size base m) {buffer : List UInt8} (hlength : 1 ≤ buffer.length)
    (hbase : base ≤ address) (hend : address + buffer.length ≤ base + size)
    (hthrough : Through size base address buffer.length) :
    bTransport m (readOf address buffer) =
      .ok (.ok, ⟨{ readOf address buffer with
        dataPtr := some (slice (address - base) buffer.length m.mLocalMem) }, m⟩) := by
  have hfits : address - base + buffer.length ≤ m.mLocalMem.length := by
    rw [h.length]
    omega
  have hcopy : copyFrom m (address - base) buffer.length = .ok (slice (address - base) buffer.length m.mLocalMem) :=
    if_pos hfits
  have hread : coreFunction m (readOf address buffer) =
      .ok ⟨{ readOf address buffer with dataPtr := some (slice (address - base) buffer.length m.mLocalMem) }, m⟩ := by
    unfold coreFunction readOf
    rw [if_neg nofun]
    unfold read
    dsimp only
    rw [h.baseAddress, hcopy]
    have hpatch : patch 0 (slice (address - base) buffer.length m.mLocalMem) buffer = _ :=
      patch_zero (length_slice hfits)
    change Except.ok _ = _
    rw [hpatch]
  rw [bTransport_of_through h ⟨.inr ⟨rfl, rfl⟩, .inl rfl⟩ hlength hbase hend hthrough, hread]
  rfl

/-- A debug transaction whose place is in the local memory is carried out at a quarter of its address. -/
theorem transportDbg_of_le {trans : GenericPayload} (h : IsMemory size base m) (hmin : trans.minPayload = true)
    (hend : trans.address / 4 + trans.dataLength ≤ size) :
    transportDbg m trans =
      (debugCopy m trans (trans.address / 4)).map fun accessed => (trans.dataLength, .ok, accessed) := by
  have hsize := h.size_lt
  have hin : ¬ (size + 1 ≤ trans.address / 4 ∨ size + 1 ≤ (trans.address / 4 + trans.dataLength) % addrCount) := by
    rw [Nat.mod_eq_of_lt (by omega)]
    omega
  unfold transportDbg
  rw [if_neg (by rw [hmin]; exact nofun), h.getSize]
  dsimp only
  rw [if_neg hin]
  rfl

/-- A debug transaction whose place is not in the local memory is answered with an address error. -/
theorem transportDbg_of_lt {trans : GenericPayload} (h : IsMemory size base m) (hmin : trans.minPayload = true)
    (haddress : trans.address < addrCount) (hlength : trans.dataLength < 2 ^ 32)
    (hend : size < trans.address / 4 + trans.dataLength) :
    transportDbg m trans = .ok (0, .addressError, ⟨trans, m⟩) := by
  have hout : size + 1 ≤ trans.address / 4 ∨ size + 1 ≤ (trans.address / 4 + trans.dataLength) % addrCount := by
    unfold addrCount at *
    omega
  unfold transportDbg
  rw [if_neg (by rw [hmin]; exact nofun), h.getSize]
  dsimp only
  rw [if_pos hout]
  rfl

/-- A debug write stores its bytes at a quarter of its address. -/
theorem transportDbg_write (h : IsMemory size base m) {bytes : List UInt8} (hend : address / 4 + bytes.length ≤ size) :
    transportDbg m (writeOf address bytes) = .ok (bytes.length, .ok,
      ⟨writeOf address bytes, { m with mLocalMem := patch (address / 4) bytes m.mLocalMem }⟩) := by
  have hcopy : copyTo m (address / 4) bytes = .ok { m with mLocalMem := patch (address / 4) bytes m.mLocalMem } := by
    apply if_pos
    rw [h.length]
    omega
  have hdebug : debugCopy m (writeOf address bytes) (address / 4) =
      .ok ⟨writeOf address bytes, { m with mLocalMem := patch (address / 4) bytes m.mLocalMem }⟩ := by
    unfold debugCopy writeOf
    dsimp only [Option.getD]
    rw [List.take_length, hcopy]
    rfl
  rw [transportDbg_of_le h rfl hend]
  change (debugCopy m (writeOf address bytes) (address / 4)).map _ = _
  rw [hdebug]
  rfl

/-- A debug read returns the bytes at a quarter of its address. -/
theorem transportDbg_read (h : IsMemory size base m) {buffer : List UInt8} (hend : address / 4 + buffer.length ≤ size) :
    transportDbg m (readOf address buffer) = .ok (buffer.length, .ok,
      ⟨{ readOf address buffer with dataPtr := some (slice (address / 4) buffer.length m.mLocalMem) }, m⟩) := by
  have hfits : address / 4 + buffer.length ≤ m.mLocalMem.length := by
    rw [h.length]
    omega
  have hcopy : copyFrom m (address / 4) buffer.length = .ok (slice (address / 4) buffer.length m.mLocalMem) :=
    if_pos hfits
  have hpatch : patch 0 (slice (address / 4) buffer.length m.mLocalMem) buffer = _ := patch_zero (length_slice hfits)
  have hdebug : debugCopy m (readOf address buffer) (address / 4) =
      .ok ⟨{ readOf address buffer with dataPtr := some (slice (address / 4) buffer.length m.mLocalMem) }, m⟩ := by
    unfold debugCopy readOf
    dsimp only [Option.getD]
    rw [hcopy]
    change Except.ok _ = _
    rw [hpatch]
  rw [transportDbg_of_le h rfl hend]
  change (debugCopy m (readOf address buffer) (address / 4)).map _ = _
  rw [hdebug]
  rfl

/-- A byte that is written once into zeros is found at its place only. -/
theorem eq_of_slice_patch {offset offset' n : ℕ} {mem : List UInt8} (hlength : offset + (n + 1) ≤ mem.length)
    (hzero : ∀ b ∈ mem, b = 0)
    (h : slice offset' (n + 1) (patch offset (1 :: List.replicate n 0) mem) = 1 :: List.replicate n 0) :
    offset' = offset := by
  have hbytes : (1 :: List.replicate n (0 : UInt8)).length = n + 1 := by
    rw [List.length_cons, List.length_replicate]
  have hfirst := congrArg (·[0]?) h
  rw [getElem?_slice (Nat.succ_pos n), Nat.add_zero, getElem?_patch (by rw [hbytes]; exact hlength),
    List.getElem?_cons_zero] at hfirst
  have hone : (1 : UInt8) ≠ 0 := by decide
  by_cases hin : offset ≤ offset' ∧ offset' < offset + (1 :: List.replicate n (0 : UInt8)).length
  · rw [if_pos hin] at hfirst
    cases hdiff : offset' - offset with
    | zero => omega
    | succ k =>
      rw [hdiff, List.getElem?_cons_succ] at hfirst
      exact absurd (List.eq_of_mem_replicate (List.mem_of_getElem? hfirst)) hone
  · rw [if_neg hin] at hfirst
    exact absurd (hzero 1 (List.mem_of_getElem? hfirst)) hone

/-! ## Both ways -/

/-- A memory that was built has base zero. -/
theorem isMemory_build {byteEnable dmiEnable : Bool} {fill : ℕ → UInt8} {m : TargetIf UInt8} (hsize : size < addrCount)
    (h : TargetIf.build size byteEnable dmiEnable fill = .ok m) : IsMemory size 0 m := by
  have hranges := TargetIf.ranges_build hsize h
  refine ⟨hranges, ?_⟩
  unfold TargetIf.build at h
  cases hget : (ofSize size).getSize with
  | error what =>
    rw [hget] at h
    cases h
  | ok length =>
    rw [hget] at h
    cases h
    rw [List.length_map, List.length_range]
    have heq := hranges.getSize
    rw [hget] at heq
    exact Except.ok.inj heq

/-- A memory that is moved has the new base. -/
theorem IsMemory.setBaseAddress (h : IsMemory size base m) {base' : ℕ} (hbase : base' < addrCount) :
    IsMemory size base' (m.setBaseAddress base') :=
  ⟨h.toRanges.setBaseAddress hbase, h.length⟩

/-- A memory with other contents of the same length is a memory of this size and base. -/
theorem IsMemory.withMem (h : IsMemory size base m) {mem : List UInt8} (hlength : mem.length = m.mLocalMem.length) :
    IsMemory size base { m with mLocalMem := mem } :=
  ⟨⟨h.size_lt, h.baseAddress, h.base_lt, h.endAddress⟩, hlength.trans h.length⟩

/-- Bytes that are written through `b_transport` and found by `transport_dbg`, one way for zeros only. -/
theorem quarter_of_debugReads (h : IsMemory size base m) (haddress : address < addrCount) (hn : n + 1 < 2 ^ 32)
    (hbase : base ≤ address) (hend : address + (n + 1) ≤ base + size) (hzero : ∀ b ∈ m.mLocalMem, b = 0)
    (hreads : DebugReads m address (1 :: List.replicate n 0) (1 :: List.replicate n 0)) :
    Through size base address (n + 1) ∧ address / 4 = address - base := by
  obtain ⟨written, hwritten, seen, hseen, hdata⟩ := hreads
  have hbytes : (1 :: List.replicate n (0 : UInt8)).length = n + 1 := by
    rw [List.length_cons, List.length_replicate]
  by_cases hthrough : Through size base address (n + 1)
  · refine ⟨hthrough, ?_⟩
    have hfits : address - base + (n + 1) ≤ m.mLocalMem.length := by
      rw [h.length]
      omega
    rw [bTransport_write h (by omega) hbase (by rw [hbytes]; exact hend) (by rw [hbytes]; exact hthrough)] at hwritten
    cases hwritten
    have hpatched := h.withMem (length_patch (b := 1 :: List.replicate n 0) (by rw [hbytes]; exact hfits))
    by_cases hdebug : address / 4 + (n + 1) ≤ size
    · rw [transportDbg_read hpatched (by rw [hbytes]; exact hdebug)] at hseen
      cases hseen
      rw [hbytes] at hdata
      exact eq_of_slice_patch hfits hzero (Option.some.inj hdata)
    · rw [transportDbg_of_lt hpatched rfl haddress (hbytes.trans_lt hn) (by
        change size < address / 4 + (1 :: List.replicate n (0 : UInt8)).length
        omega)] at hseen
      cases hseen
  · rw [bTransport_of_not_through h (by
      change ¬ Through size base address (1 :: List.replicate n (0 : UInt8)).length
      rw [hbytes]
      exact hthrough)] at hwritten
    cases hwritten

/-- Where both ways go to one place, `transport_dbg` reads what was written through `b_transport`. -/
theorem debugReads_of_quarter (h : IsMemory size base m) {bytes buffer : List UInt8} (hlength : 1 ≤ bytes.length)
    (hbuffer : buffer.length = bytes.length) (hbase : base ≤ address) (hend : address + bytes.length ≤ base + size)
    (hthrough : Through size base address bytes.length) (hquarter : address / 4 = address - base) :
    DebugReads m address bytes buffer := by
  have hfits : address - base + bytes.length ≤ m.mLocalMem.length := by
    rw [h.length]
    omega
  refine ⟨_, bTransport_write h hlength hbase hend hthrough, _,
    transportDbg_read (h.withMem (length_patch hfits)) (by omega), ?_⟩
  change some (slice (address / 4) buffer.length (patch (address - base) bytes m.mLocalMem)) = some bytes
  rw [hquarter, slice_patch (by omega) hbuffer.symm]

/-- Where both ways go to one place, `b_transport` reads what was written through `transport_dbg`. -/
theorem debugWrites_of_quarter (h : IsMemory size base m) {bytes buffer : List UInt8} (hlength : 1 ≤ bytes.length)
    (hbuffer : buffer.length = bytes.length) (hbase : base ≤ address) (hend : address + bytes.length ≤ base + size)
    (hthrough : Through size base address bytes.length) (hquarter : address / 4 = address - base) :
    DebugWrites m address bytes buffer := by
  have hfits : address / 4 + bytes.length ≤ m.mLocalMem.length := by
    rw [h.length]
    omega
  refine ⟨_, transportDbg_write h (by omega), _,
    bTransport_read (h.withMem (length_patch hfits)) (by omega) hbase (by omega) (by rw [hbuffer]; exact hthrough), ?_⟩
  change some (slice (address - base) buffer.length (patch (address / 4) bytes m.mLocalMem)) = some bytes
  rw [hquarter, slice_patch (by omega) hbuffer.symm]

/-- What is written one way is read the other way, whatever is in the memory, exactly when `b_transport` lets the
access through and the quarter of the address is its distance from the base address. -/
theorem debugAgrees_iff {byteEnable dmiEnable : Bool} {fill : ℕ → UInt8} {m : TargetIf UInt8} (hsize : size < addrCount)
    (hbuild : TargetIf.build size byteEnable dmiEnable fill = .ok m) (hbase : base < addrCount)
    (haddress : address < addrCount) (hn : 1 ≤ n ∧ n < 2 ^ 32) (hin : base ≤ address ∧ address + n ≤ base + size) :
    DebugAgrees (m.setBaseAddress base) address n ↔
      (address + n) % addrCount ≤ (base + size + 1) % addrCount ∧ address / 4 = address - base := by
  have hmemory := (isMemory_build hsize hbuild).setBaseAddress hbase
  constructor
  · intro h
    obtain ⟨k, rfl⟩ : ∃ k, n = k + 1 := ⟨n - 1, by omega⟩
    have hbytes : (1 :: List.replicate k (0 : UInt8)).length = k + 1 := by
      rw [List.length_cons, List.length_replicate]
    have hzeros := List.length_replicate (n := (m.setBaseAddress base).mLocalMem.length) (a := (0 : UInt8))
    exact quarter_of_debugReads (hmemory.withMem hzeros) haddress hn.2 hin.1 hin.2
      (fun b hb => List.eq_of_mem_replicate hb) (h _ _ _ hzeros hbytes hbytes).1
  · intro ⟨hthrough, hquarter⟩ mem bytes buffer hlength hbytes hbuffer
    have hmem := hmemory.withMem hlength
    subst hbytes
    exact ⟨debugReads_of_quarter hmem hn.1 hbuffer hin.1 hin.2 hthrough hquarter,
      debugWrites_of_quarter hmem hn.1 hbuffer hin.1 hin.2 hthrough hquarter⟩

/-- A memory of 16 bytes. -/
def smallMemory : TargetIf UInt8 := ⟨ofSize 16, false, true, (List.range 17).map fun _ => 0⟩

/-- In a memory at address 3, both ways agree on the second byte, whose address is 4. -/
theorem debugAgrees_first : DebugAgrees (smallMemory.setBaseAddress 3) 4 1 :=
  (debugAgrees_iff (by decide) (show TargetIf.build 16 false true (fun _ => 0) = .ok smallMemory from rfl) (by decide)
    (by decide) (by decide) (by decide)).2 (by decide)

/-- A byte written at address 4 of a memory at address 0 is not seen by `transport_dbg`. -/
theorem not_debugReads_word :
    TargetIf.build 16 false true (fun _ => 0) = .ok smallMemory ∧
      (∃ written, bTransport (smallMemory.setBaseAddress 0) (writeOf 4 [1]) = .ok (.ok, written) ∧
        ∃ seen, transportDbg written.memory (readOf 4 [1]) = .ok (1, .ok, seen) ∧ seen.trans.dataPtr = some [0]) ∧
      ¬ DebugReads (smallMemory.setBaseAddress 0) 4 [1] [1] := by
  have hbuild : TargetIf.build 16 false true (fun _ => 0) = .ok smallMemory := rfl
  have hmemory := (isMemory_build (by decide) hbuild).setBaseAddress (show 0 < addrCount by decide)
  have hthrough : Through 16 0 4 1 := show (4 + 1) % addrCount ≤ (0 + (16 + 1)) % addrCount by decide
  have hwrite := bTransport_write hmemory (show 1 ≤ [(1 : UInt8)].length by decide) (show 0 ≤ 4 by decide)
    (by decide) hthrough
  have hlength : (patch 4 [1] smallMemory.mLocalMem).length = smallMemory.mLocalMem.length := by decide
  have hread := transportDbg_read (hmemory.withMem hlength) (show 4 / 4 + [(1 : UInt8)].length ≤ 16 by decide)
  refine ⟨hbuild, ⟨_, hwrite, _, hread, by decide⟩, fun hreads => ?_⟩
  have hzero : ∀ b ∈ (smallMemory.setBaseAddress 0).mLocalMem, b = 0 := by
    intro b hb
    obtain ⟨_, -, rfl⟩ := List.mem_map.1 hb
    rfl
  obtain ⟨-, hquarter⟩ := quarter_of_debugReads (n := 0) hmemory (by decide) (by decide) (by decide) (by decide) hzero
    hreads
  omega

end Vpsim.Memory
