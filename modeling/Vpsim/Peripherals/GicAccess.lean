import Vpsim.Peripherals.Gic
import Vpsim.Lib.Run

/-!
# Register accesses of the interrupt controller

The four regions of the controller, as guests read and write them, and the input lines. Writes
and input lines end with the combinational logic; reads change nothing.
-/

namespace Vpsim.Peripherals

open Vpsim.Lib

/-- The text of a failure; the two that the language leaves undefined have none. -/
def Failure.what : Failure → String
  | .noExtension => "GicCpuExtension is mendatory for correct Gic operation !"
  | .unknownRegion addr => toString addr.toNat ++ " : Unknown GIC region."
  | .nothingQueued => "Something went wront with GIC interrupt handling."
  | .wrongInterrupt interrupt expected =>
    toString interrupt ++ " != " ++ toString expected ++ " -> Bullshit."
  | .wrongVirtualInterrupt id interrupt expected =>
    toString id ++ " " ++ toString interrupt ++ " != " ++ toString expected ++ " -> Bullshit."
  | .wrongPhysicalInterrupt interrupt expected =>
    "Physical interrupt :" ++ toString interrupt ++ " does not match queue front: " ++ toString expected
  | .reservedVirtualId => "0"
  | .virtualControl id value => toString id ++ " --> Current value: " ++ toString value.toNat
  | .unexpectedSgi =>
    "GIC: Unexpected SGI in update_irq(). Trying to send a soft-int from anything other than software ?"
  | .indexOutOfRange | .emptyQueue => ""

/-- Code that runs on the controller. -/
abbrev GicM := EStateM Failure Gic

/-- An offset of the end-of-interrupt and deactivate registers. -/
def isCompletion (offset : ℕ) : Bool := offset == 0x10 || offset == 0x24 || offset == 0x1000

namespace Gic

/-- Set or clear a pending bit. -/
def putPending (g : Gic) (cpu interrupt : ℕ) (value : Word) : Gic :=
  let old := g.pendingInterrupts cpu (interrupt / 32)
  let new := if value ≠ 0#32 then old ||| 1#32 <<< (interrupt % 32) else old &&& ~~~(1#32 <<< (interrupt % 32))
  let words := Function.update (g.pendingInterrupts cpu) (interrupt / 32) new
  { g with pendingInterrupts := Function.update g.pendingInterrupts cpu words }

/-- `setInterruptPending`. A store outside the vector has no defined result. -/
def setInterruptPending (cpu interrupt : ℕ) (value : Word) : GicM Unit := do
  modify (·.record (.index cpu (interrupt / 32)))
  if interrupt / 32 < nGicInterrupts / 32 then modify (·.putPending cpu interrupt value)
  else throw .indexOutOfRange

/-! ## The CPU interface -/

/-- Whether completion needs the deactivate register (`curr_mode`). -/
def currMode (g : Gic) (base id : ℕ) : Bool := (g.mem (base + (id * 0x100 + 1))).getLsbD 1

/-- `mRoundRobin` moves on. -/
def nextRound (g : Gic) : Gic := { g with roundRobin := (g.roundRobin + 1) % g.cpus.length }

/-- The CPU interface shows the new front of the queue, which becomes pending. -/
def showNext (queue : List Word) (id : ℕ) : GicM Unit :=
  match queue with
  | next :: _ => do
    setInterruptPending id (interruptId next) 1#32
    modify (·.setCurrentInterruptId id next)
  | [] => modify fun g => (g.setCurrentInterruptId id 1023#32).nextRound

/-- The front of the queue is completed. -/
def completeInterrupt (value : Word) (id : ℕ) : GicM Unit := do
  match (← get).cpuQueue id with
  | [] => throw .nothingQueued
  | front :: rest =>
    setInterruptPending id (interruptId value) 0#32
    if interruptId value = interruptId front then
      modify (·.popCpu id)
      showNext rest id
    else throw (.wrongInterrupt (interruptId value) (interruptId front))

def writeCpu (offset : ℕ) (value : Word) (size id : ℕ) : GicM Unit := do
  let g ← get
  if isCompletion offset then
    if !g.currMode g.config.cpuBase id || offset == 0x1000 then completeInterrupt value id else pure ()
  else modify fun g => g.memcpy (g.config.cpuBase + offset + id * 0x100) value size

def readCpu (g : Gic) (offset id : ℕ) : Word := loadWord g.mem (g.config.cpuBase + id * 0x100 + offset)

/-! ## The virtual CPU interface -/

/-- The list register is marked empty, and its `State` is cleared. -/
def retireEntry (g : Gic) (id : ℕ) (k : Fin 64) : Gic :=
  let g := g.orByte (g.vDistBank id + ((k : ℕ) / 32 * 4 + 0x30)) ((k : ℕ) % 32)
  let entry := g.vDistBank id + (0x100 + k * 4)
  (g.putWord entry (clearState (loadWord g.mem entry))).record (.retired id k)

/-- The physical interrupt behind a virtual one is completed with it. -/
def completePhysical (interrupt : ℕ) (vint : Word) (id : ℕ) : GicM Unit := do
  setInterruptPending id interrupt 0#32
  match (← get).cpuQueue id with
  | [] => throw .emptyQueue
  | front :: _ =>
    if physicalId vint = interruptId front then modify (·.popCpu id)
    else throw (.wrongPhysicalInterrupt (physicalId vint) (interruptId front))

/-- A maintenance interrupt for the end of an entry that asks for one. -/
def notifyEnd (g : Gic) (id : ℕ) (k : Fin 64) : Gic :=
  let g := g.orByte (g.vDistBank id + 0x10) 0
  let g := g.orByte (g.vDistBank id + (0x20 + (k : ℕ) / 32 * 4)) ((k : ℕ) % 32)
  g.genMaint id

/-- Whether the end of the virtual queue is notified: the two words are read through a pointer
to words. -/
def endsVirtual (g : Gic) (id : ℕ) : Bool :=
  loadWord g.mem (4 * (g.vDistBank id + 0x30)) == 0xffffffff#32 &&
    loadWord g.mem (4 * (g.vDistBank id + (4 + 0x30))) == 0xffffffff#32 && (g.mem (g.vDistBank id)).getLsbD 3

/-- What the virtual interface shows after an entry has gone. -/
def nextVirtual (g : Gic) (id : ℕ) : Gic :=
  match g.vCpuQueue id with
  | k :: _ => (g.record (.lookup id k (g.getVIntEntry k))).setCurrentVirtualInterruptId id (nextInt (g.getVIntEntry k))
  | [] =>
    let g := g.setCurrentVirtualInterruptId id 1023#32
    if g.endsVirtual id then (g.orByte (g.vDistBank id + 0x10) 3).genMaint id else g

/-- What the end of a virtual interrupt does beside the virtual interface. -/
def endEntry (interrupt : ℕ) (vint : Word) (k : Fin 64) (id : ℕ) : GicM Unit :=
  if entryHw vint then completePhysical interrupt vint id
  else if (physicalId vint).testBit 9 then modify (·.notifyEnd id k)
  else pure ()

/-- The front of the virtual queue is completed. -/
def completeVirtual (value : Word) (id : ℕ) : GicM Unit := do
  let g ← get
  match g.vCpuQueue id with
  | [] => throw .nothingQueued
  | k :: _ =>
    let vint := g.getVIntEntry k
    modify (·.record (.lookup id k vint))
    if interruptId value = virtualId vint then
      modify (·.retireEntry id k)
      endEntry (interruptId value) vint k id
      modify fun g => (g.popVCpu id).nextVirtual id
    else throw (.wrongVirtualInterrupt id (interruptId value) (virtualId vint))

def writeVCpu (offset : ℕ) (value : Word) (size id : ℕ) : GicM Unit := do
  let g ← get
  if isCompletion offset then
    if !g.currMode g.config.vCpuBase id || offset == 0x1000 then completeVirtual value id else pure ()
  else modify fun g => g.memcpy (g.config.vCpuBase + offset + id * 0x100) value size

def readVCpu (g : Gic) (offset id : ℕ) : Word := loadWord g.mem (g.config.vCpuBase + id * 0x100 + offset)

/-! ## The distributor -/

/-- `mEnableStatus[..][interrupt] = status`: interrupts above 31 are shared by all CPUs. -/
def markEnable (g : Gic) (cpuId interrupt : ℕ) (status : Bool) : Gic :=
  let mark (map : ℕ → List (ℕ × Bool)) (cpu : ℕ) := Function.update map cpu (setEntry interrupt status (map cpu))
  if interrupt > 31 then { g with enableStatus := g.cpus.foldl mark g.enableStatus }
  else { g with enableStatus := mark g.enableStatus cpuId }

/-- The interrupt that bit `i` of an enable or disable write names. -/
def namedInterrupt (offset i : ℕ) : ℕ := (offset - 0x100) * 8 + i

/-- The loop over the bits of an enable or disable write. -/
def markBits (g : Gic) (cpuId offset : ℕ) (value : Word) (status : Bool) : Gic :=
  (List.range 32).foldl
    (fun g i => if value.getLsbD i then g.markEnable cpuId (namedInterrupt offset i) status else g) g

/-- The CPUs a software interrupt is sent to. -/
def sgiTargets (value : Word) (cpuId : ℕ) : BitVec 8 :=
  let policy := (value >>> 24) &&& 3#32
  if policy = 0#32 then (value >>> 16).setWidth 8
  else if policy = 1#32 then (~~~(1#32 <<< cpuId)).setWidth 8
  else if policy = 2#32 then (1#32 <<< cpuId).setWidth 8
  else 0xFF#8

/-- The number of a software interrupt. -/
def sgiNumber (value : Word) : ℕ := (value &&& 0xF#32).toNat

/-- `mInterruptOrigins[cpu][interrupt] = source`. -/
def putOrigin (g : Gic) (cpu interrupt source : ℕ) : Gic :=
  let origins := Function.update (g.interruptOrigins cpu) interrupt source
  { g with interruptOrigins := Function.update g.interruptOrigins cpu origins }

/-- A write to the software interrupt register. -/
def generateSgi (value : Word) (cpuId : ℕ) : GicM Unit := do
  let targetlist := sgiTargets value cpuId
  modify (·.setInterruptTarget (sgiNumber value) targetlist)
  let g ← get
  (List.range g.cpus.length).forM fun cpuT =>
    if targetlist.getLsbD cpuT then do
      modify (·.putOrigin cpuT (sgiNumber value) cpuId)
      setInterruptPending cpuT (sgiNumber value) 1#32
    else pure ()

/-- The register of an enable write. -/
def enableRegister (g : Gic) (offset : ℕ) (value : Word) : Gic :=
  let addr := g.config.distBase + offset
  g.putWord addr (loadWord g.mem addr ||| value)

/-- The two registers of a disable write. -/
def disableRegisters (g : Gic) (offset : ℕ) (value : Word) : Gic :=
  let addr := g.config.distBase + (offset - 0x80)
  let g := g.putWord addr (loadWord g.mem addr &&& ~~~value)
  g.enableRegister offset value

/-- An enable write: the register, then the maps. -/
def enableBits (g : Gic) (offset : ℕ) (value : Word) (cpuId : ℕ) : Gic :=
  (g.enableRegister offset value).markBits cpuId offset value true

/-- A disable write: the registers, then the maps. -/
def disableBits (g : Gic) (offset : ℕ) (value : Word) (cpuId : ℕ) : Gic :=
  (g.disableRegisters offset value).markBits cpuId offset value false

def writeDist (offset : ℕ) (value : Word) (size cpuId : ℕ) : GicM Unit :=
  if 0x100 ≤ offset ∧ offset ≤ 0x17C then modify (·.enableBits offset value cpuId)
  else if 0x180 ≤ offset ∧ offset ≤ 0x1FC then modify (·.disableBits offset value cpuId)
  else if offset = 0xF00 then generateSgi value cpuId
  else modify fun g => g.memcpy (g.config.distBase + offset) value size

def readDist (g : Gic) (offset cpuId : ℕ) : Word :=
  if 0x800 ≤ offset ∧ offset < 0x800 + 8 * 4 then
    1#32 <<< cpuId ||| 1#32 <<< (cpuId + 8) ||| 1#32 <<< (cpuId + 16) ||| 1#32 <<< (cpuId + 24)
  else loadWord g.mem (g.config.distBase + offset)

/-! ## The list registers -/

/-- Whether an entry of the virtual queue has the numbers of `value`. -/
def alreadyListed (g : Gic) (value : Word) (id : ℕ) : Bool :=
  (g.vCpuQueue id).any fun k =>
    virtualId (g.getVIntEntry k) == virtualId value && physicalId (g.getVIntEntry k) == physicalId value

/-- The lookups of the search through the virtual queue. -/
def lookupAll (g : Gic) (id : ℕ) : Gic :=
  { g with log := ((g.vCpuQueue id).map fun k => .lookup id k (g.getVIntEntry k)).reverse ++ g.log }

/-- The queue and the status of a list register that is written. -/
def listEntry (g : Gic) (which : Fin 64) (value : Word) (id : ℕ) : Gic :=
  let status := g.vDistBank id + 0x30 + (which : ℕ) / 32 * 4
  if entryState value = 0 then g.orByte status ((which : ℕ) % 32)
  else
    let g := g.lookupAll id
    if g.alreadyListed value id then g
    else (g.pushVCpu id which).andNotByte status ((which : ℕ) % 32)

/-- A maintenance interrupt when no virtual interrupt is left. -/
def notifyEmpty (g : Gic) (id : ℕ) : Gic :=
  if (g.vCpuQueue id).isEmpty && (g.mem (g.vDistBank id)).getLsbD 3 then
    (g.orByte (g.vDistBank id + 0x10) 3).genMaint id
  else g

theorem listIndex_lt {offset : ℕ} (h : 0x100 ≤ offset ∧ offset < 0x200) : (offset - 0x100) / 4 < 64 := by
  omega

/-- A write to a list register, before the word is stored. -/
def writeList (offset : ℕ) (value : Word) (id : ℕ) : GicM Unit :=
  if h : 0x100 ≤ offset ∧ offset < 0x200 then do
    modify (·.listEntry ⟨(offset - 0x100) / 4, listIndex_lt h⟩ value id)
    if virtualId value = 0xb then throw .reservedVirtualId else modify (·.notifyEmpty id)
  else pure ()

/-- The control register of the virtual machine is an alias of two registers of the virtual
interface. -/
def forwardControl (offset : ℕ) (value : Word) (id : ℕ) : GicM Unit :=
  if offset = 8 then do
    let g ← get
    writeVCpu 0 ((g.readVCpu 0 id &&& ~~~0x1ff#32) ||| (value &&& 0x1ff#32)) 4 id
    let g ← get
    writeVCpu 4 ((value >>> 27) <<< 3 ||| (g.readVCpu 4 id &&& ~~~(0x1f#32 <<< 3))) 4 id
  else pure ()

def writeVDist (offset : ℕ) (value : Word) (id : ℕ) : GicM Unit := do
  writeList offset value id
  modify fun g => (g.putWord (g.vDistBank id + offset) value).record (.bankWrite id offset value)
  forwardControl offset value id
  if offset = 0 ∧ value ≠ 0#32 ∧ value ≠ 1#32 then throw (.virtualControl id value) else pure ()

def readVDist (g : Gic) (offset id : ℕ) : Word :=
  if offset = 4 then 0x3f#32 ||| 4#32 <<< 26 ||| 4#32 <<< 29
  else if offset = 8 then
    (g.readVCpu 0 id &&& 0x1ff#32) ||| (g.readVCpu 8 id &&& 7#32) <<< 21 |||
      (g.readVCpu 0x1c id &&& 7#32) <<< 18 ||| (g.readVCpu 4 id >>> 3) <<< 27
  else loadWord g.mem (g.vDistBank id + offset)

/-! ## Input lines -/

/-- The number of the line; the upper half of the argument is a set of CPUs. -/
def actualIrq (irqIdx : Word) : ℕ := (irqIdx &&& 0xFFFF#32).toNat

/-- `update_irq` before its combinational logic. -/
def raiseLine (val : BitVec 64) (irqIdx : Word) : GicM Unit := do
  let targets := irqIdx >>> 16
  let g ← get
  if 32 ≤ actualIrq irqIdx then
    (List.range g.cpus.length).forM fun i => setInterruptPending i (actualIrq irqIdx) (val.setWidth 32)
  else if 16 ≤ actualIrq irqIdx then
    g.cpus.forM fun cpu =>
      if targets.getLsbD cpu then do
        modify (·.setInterruptTarget (actualIrq irqIdx) (targets.setWidth 8))
        setInterruptPending cpu (actualIrq irqIdx) (val.setWidth 32)
      else pure ()
  else throw .unexpectedSgi

end Gic

/-! ## Operations -/

/-- The regions of the controller. -/
inductive Region where
  | dist
  | cpu
  | vCpu
  | vDist
  deriving DecidableEq

/-- Offsets from 0xf000 on are an alias of the first ones. -/
def foldOffset (off : ℕ) : ℕ := if 0xf000 ≤ off then off - 0xf000 else off

/-- The region and the offset of an address. -/
def GicConfig.locate (config : GicConfig) (addr : BitVec 64) : Option (Region × ℕ) :=
  let offset := (addr - config.baseAddress).toNat
  if config.distBase ≤ offset ∧ offset < config.distBase + config.distSize then
    some (.dist, foldOffset (offset - config.distBase))
  else if config.cpuBase ≤ offset ∧ offset < config.cpuBase + config.cpuSize then
    some (.cpu, foldOffset (offset - config.cpuBase))
  else if config.vCpuBase ≤ offset ∧ offset < config.vCpuBase + config.vCpuSize then
    some (.vCpu, foldOffset (offset - config.vCpuBase))
  else if config.vDistBase ≤ offset ∧ offset < config.vDistBase + config.vDistSize then
    some (.vDist, foldOffset (offset - config.vDistBase))
  else none

/-- An operation on the controller: guest accesses by a CPU, which an extension of the payload
names, and changes of an input line. -/
inductive GicOp where
  | read (cpu : Option ℕ) (addr : BitVec 64) (len : ℕ)
  | write (cpu : Option ℕ) (addr : BitVec 64) (value : Word) (len : ℕ)
  | updateIrq (val : BitVec 64) (irqIdx : Word)

namespace Gic

/-- The write of a region. -/
def writeRegion (region : Region) (offset : ℕ) (value : Word) (len id : ℕ) : GicM Unit :=
  match region with
  | .dist => writeDist offset value len id
  | .cpu => writeCpu offset value len id
  | .vCpu => writeVCpu offset value len id
  | .vDist => writeVDist offset value id

/-- The read of a region. -/
def readRegion (g : Gic) (region : Region) (offset id : ℕ) : Word :=
  match region with
  | .dist => g.readDist offset id
  | .cpu => g.readCpu offset id
  | .vCpu => g.readVCpu offset id
  | .vDist => g.readVDist offset id

def read (cpu : Option ℕ) (addr : BitVec 64) : GicM Word := do
  match cpu with
  | none => throw .noExtension
  | some id =>
    let g ← get
    match g.config.locate addr with
    | none => throw (.unknownRegion addr)
    | some (region, offset) => return g.readRegion region offset id

def write (cpu : Option ℕ) (addr : BitVec 64) (value : Word) (len : ℕ) : GicM Unit := do
  match cpu with
  | none => throw .noExtension
  | some id =>
    match (← get).config.locate addr with
    | none => throw (.unknownRegion addr)
    | some (region, offset) => writeRegion region offset value len id
  modify combLogic

def updateIrq (val : BitVec 64) (irqIdx : Word) : GicM Unit := do
  raiseLine val irqIdx
  modify combLogic

/-- One operation. -/
def step : GicOp → GicM Unit
  | .read cpu addr _ => do
    let _ ← read cpu addr
  | .write cpu addr value len => write cpu addr value len
  | .updateIrq val irqIdx => updateIrq val irqIdx

/-- A run of operations. -/
def runAll (ops : List GicOp) : GicM Unit := ops.forM step

end Gic

end Vpsim.Peripherals
