import Vpsim.Lib.ByteMemory
import Vpsim.Lib.OrderedMap
import Mathlib.Data.List.Rotate
import Mathlib.Logic.Function.Basic

/-!
# The interrupt controller

The registers of the controller live in one byte memory that is not initialised: the
distributor, a bank of 0x100 bytes for each CPU interface, and the same for the virtual
interface, with banks of 0x1000 bytes for the list registers. Beside the memory it keeps, for
each CPU, the words of pending interrupts, a map of enabled interrupts, and the queues of
interrupts that wait to be completed.

Every access ends with `combLogic`, which scans the map of each CPU and queues what can be
delivered. An access that throws leaves the controller locked, so a run ends there; the state in
which it stopped is kept. Indices into the words of pending interrupts, queued interrupts, calls
to the CPUs, and writes and lookups of list registers are recorded in a log.
-/

namespace Vpsim.Peripherals

open Vpsim.Lib

/-- A 32-bit register. -/
abbrev Word := BitVec 32

/-- The address `a` lies in the block of `len` bytes from `base` on. -/
def InBlock (base len a : ℕ) : Prop := base ≤ a ∧ a < base + len

/-- Interrupts that have a pending bit (`N_GIC_INTERRUPTS`). -/
def nGicInterrupts : ℕ := 512

/-- The attributes of a controller. -/
structure GicConfig where
  baseAddress : BitVec 64
  distBase : ℕ
  distSize : ℕ
  cpuBase : ℕ
  cpuSize : ℕ
  vDistBase : ℕ
  vDistSize : ℕ
  vCpuBase : ℕ
  vCpuSize : ℕ
  maintIrq : Word

/-- The base of the list-register bank of a CPU. -/
def GicConfig.bank (config : GicConfig) (id : ℕ) : ℕ := config.vDistBase + 0x1000 * id

/-- Why an access does not return. The last two are accesses outside an array and to the front
of an empty queue, after which the program has no defined behaviour. -/
inductive Failure where
  | noExtension
  | unknownRegion (addr : BitVec 64)
  | nothingQueued
  | wrongInterrupt (interrupt expected : ℕ)
  | wrongVirtualInterrupt (id interrupt expected : ℕ)
  | wrongPhysicalInterrupt (interrupt expected : ℕ)
  | reservedVirtualId
  | virtualControl (id : ℕ) (value : Word)
  | unexpectedSgi
  | indexOutOfRange
  | emptyQueue
  deriving DecidableEq

/-- What the controller does to the outside, and the indices it uses. -/
inductive Event where
  /-- `mPendingInterrupts[cpu][index]` is used. -/
  | index (cpu index : ℕ)
  /-- `comb_logic` appends to the queue of a CPU. -/
  | queued (cpu : ℕ) (value : Word)
  /-- A line of a CPU is driven. -/
  | updateIrq (cpu line : ℕ) (level : Bool)
  /-- List register `k` is looked up for a CPU. -/
  | lookup (cpu : ℕ) (k : Fin 64) (entry : Word)
  /-- A CPU writes its bank of list registers. -/
  | bankWrite (cpu offset : ℕ) (value : Word)
  /-- The `State` of a list register of a CPU is cleared. -/
  | retired (cpu : ℕ) (k : Fin 64)
  deriving DecidableEq

/-- The state of the controller. The words of pending interrupts from
`nGicInterrupts / 32` on are what lies behind the vector in memory. -/
structure Gic where
  config : GicConfig
  mem : ByteMemory
  cpus : List ℕ
  cpuQueue : ℕ → List Word
  /-- The list registers that hold an interrupt to complete. -/
  vCpuQueue : ℕ → List (Fin 64)
  interruptOrigins : ℕ → ℕ → ℕ
  pendingInterrupts : ℕ → ℕ → Word
  enableStatus : ℕ → List (ℕ × Bool)
  roundRobin : ℕ
  /-- What follows a 32-bit argument on the stack. -/
  stack : ℕ → BitVec 8
  log : List Event

/-! ## List register entries -/

/-- `VIntEntry::VirtualID`. -/
def virtualId (entry : Word) : ℕ := (entry.extractLsb' 0 10).toNat

/-- `VIntEntry::PhysicalID`. -/
def physicalId (entry : Word) : ℕ := (entry.extractLsb' 10 10).toNat

/-- `VIntEntry::State`. -/
def entryState (entry : Word) : ℕ := (entry.extractLsb' 28 2).toNat

/-- `VIntEntry::HW`. -/
def entryHw (entry : Word) : Bool := entry.getLsbD 31

/-- An entry with `State` cleared. -/
def clearState (entry : Word) : Word := entry &&& ~~~(3#32 <<< 28)

/-- The low ten bits of an acknowledge or completion value. -/
def interruptId (value : Word) : ℕ := (value &&& 0x3FF#32).toNat

/-- The value a virtual interface acknowledges for an entry. -/
def nextInt (entry : Word) : Word :=
  if entryHw entry then BitVec.ofNat 32 (virtualId entry)
  else BitVec.ofNat 32 (virtualId entry) ||| BitVec.ofNat 32 (physicalId entry) <<< 10

namespace Gic

variable (g : Gic)

/-! ## Access to the state -/

/-- Add an event to the log, which is newest first. -/
def record (e : Event) : Gic := { g with log := e :: g.log }

/-- The memory with one word written. -/
def putWord (addr : ℕ) (w : Word) : Gic := { g with mem := storeWord g.mem addr w }

/-- The memory with one byte written. -/
def putByte (addr : ℕ) (b : BitVec 8) : Gic := { g with mem := storeByte g.mem addr b }

/-- `base[addr] |= 1 << i` on a byte: the shift is of an `int`, the result is cut to the byte. -/
def orByte (addr i : ℕ) : Gic := g.putByte addr (g.mem addr ||| (1#32 <<< i).setWidth 8)

/-- `base[addr] &= ~(1 << i)` on a byte. -/
def andNotByte (addr i : ℕ) : Gic := g.putByte addr (g.mem addr &&& (~~~(1#32 <<< i)).setWidth 8)

/-- `memcpy(addr, &value, size)`: bytes beyond the fourth are those behind the argument. -/
def memcpy (addr : ℕ) (value : Word) (size : ℕ) : Gic :=
  { g with mem := store g.mem addr size fun i => if i < 4 then wordByte value i else g.stack (i - 4) }

/-- `getLocalMem()[addr/4] = value`. -/
def putLocal (addr : ℕ) (value : Word) : Gic := g.putWord (4 * (addr / 4)) value

/-- Append to the queue of a CPU. -/
def pushCpu (cpu : ℕ) (value : Word) : Gic :=
  { g with cpuQueue := Function.update g.cpuQueue cpu (g.cpuQueue cpu ++ [value]) }

/-- Remove the front of the queue of a CPU. -/
def popCpu (cpu : ℕ) : Gic := { g with cpuQueue := Function.update g.cpuQueue cpu (g.cpuQueue cpu).tail }

/-- Append to the virtual queue of a CPU. -/
def pushVCpu (cpu : ℕ) (k : Fin 64) : Gic :=
  { g with vCpuQueue := Function.update g.vCpuQueue cpu (g.vCpuQueue cpu ++ [k]) }

/-- Remove the front of the virtual queue of a CPU. -/
def popVCpu (cpu : ℕ) : Gic :=
  { g with vCpuQueue := Function.update g.vCpuQueue cpu (g.vCpuQueue cpu).tail }

@[simp] theorem pushCpu_cpuQueue (cpu : ℕ) (value : Word) (c : ℕ) :
    (g.pushCpu cpu value).cpuQueue c = if c = cpu then g.cpuQueue cpu ++ [value] else g.cpuQueue c := by
  simp only [pushCpu, Function.update_apply]

@[simp] theorem popCpu_cpuQueue (cpu c : ℕ) :
    (g.popCpu cpu).cpuQueue c = if c = cpu then (g.cpuQueue cpu).tail else g.cpuQueue c := by
  simp only [popCpu, Function.update_apply]

@[simp] theorem pushVCpu_vCpuQueue (cpu : ℕ) (k : Fin 64) (c : ℕ) :
    (g.pushVCpu cpu k).vCpuQueue c = if c = cpu then g.vCpuQueue cpu ++ [k] else g.vCpuQueue c := by
  simp only [pushVCpu, Function.update_apply]

@[simp] theorem popVCpu_vCpuQueue (cpu c : ℕ) :
    (g.popVCpu cpu).vCpuQueue c = if c = cpu then (g.vCpuQueue cpu).tail else g.vCpuQueue c := by
  simp only [popVCpu, Function.update_apply]

/-! ## Registers -/

/-- The base of the list-register bank of a CPU. -/
def vDistBank (id : ℕ) : ℕ := g.config.bank id

def getVIntEntry (index : ℕ) : Word := loadWord g.mem (g.config.vDistBase + (0x100 + 4 * index))

def isEnabled : Bool := (loadWord g.mem (4 * (g.config.distBase / 4))).getLsbD 0

def cpuTakesInterrupts (cpu : ℕ) : Bool :=
  (loadWord g.mem (4 * ((g.config.cpuBase + 0x100 * cpu) / 4))).getLsbD 0

def setCurrentInterruptId (cpu : ℕ) (value : Word) : Gic :=
  g.putLocal (g.config.cpuBase + 0x100 * cpu + 0xC) value

def setCurrentVirtualInterruptId (cpu : ℕ) (value : Word) : Gic :=
  g.putLocal (g.config.vCpuBase + 0x100 * cpu + 0xC) value

def getInterruptPriority (interrupt : ℕ) : BitVec 8 := g.mem (g.config.distBase + 0x400 + interrupt)

def getCpuPriorityMask (cpu : ℕ) : BitVec 8 := g.mem (g.config.cpuBase + cpu * 0x100 + 4)

def setInterruptTarget (interrupt : ℕ) (targetlist : BitVec 8) : Gic :=
  g.putByte (g.config.distBase + 0x800 + interrupt) targetlist

def cpuInTarget (interrupt cpu : ℕ) : Bool :=
  (g.mem (g.config.distBase + 0x800 + interrupt)).getLsbD cpu

/-! ## Delivery -/

/-- The value acknowledged for an interrupt: software interrupts carry the CPU they come from. -/
def ackValue (cpu interrupt : ℕ) : Word :=
  if interrupt < 16 then
    BitVec.ofNat 32 interrupt ||| BitVec.ofNat 32 (g.interruptOrigins cpu interrupt) <<< 10
  else BitVec.ofNat 32 interrupt

/-- `comb_logic` at one entry of the map of a CPU. -/
def serveEntry (cpu : ℕ) (g : Gic) (entry : ℕ × Bool) : Gic :=
  -- `j + i*32` in the source is the key again
  let tch := entry.1
  let masked := g.pendingInterrupts cpu (tch / 32)
  let g := g.record (.index cpu (tch / 32))
  if g.getInterruptPriority tch > g.getCpuPriorityMask cpu then g
  else if masked.getLsbD (tch % 32) && g.cpuInTarget tch cpu then
    if findEntry tch (g.enableStatus cpu) = some true then
      if g.ackValue cpu tch ∈ g.cpuQueue cpu then g
      else (g.pushCpu cpu (g.ackValue cpu tch)).record (.queued cpu (g.ackValue cpu tch))
    else g
  else g

/-- The physical line of a CPU, after its map is scanned. -/
def presentPhysical (cpu : ℕ) : Gic :=
  match g.cpuQueue cpu with
  | [] => g.record (.updateIrq cpu 0 false)
  | front :: _ => (g.setCurrentInterruptId cpu front).record (.updateIrq cpu 0 true)

/-- The virtual line of a CPU. -/
def presentVirtual (cpu : ℕ) : Gic :=
  match g.vCpuQueue cpu with
  | [] => g.record (.updateIrq cpu 2 false)
  | k :: _ =>
    let vint := g.getVIntEntry k
    let g := g.record (.lookup cpu k vint)
    let next := nextInt vint
    let next := if next < 16#32 then next ||| (BitVec.ofNat 32 (physicalId vint) &&& 7#32) <<< 10 else next
    (g.setCurrentVirtualInterruptId cpu next).record (.updateIrq cpu 2 true)

/-- `comb_logic` for one CPU. -/
def serveCpu (g : Gic) (cpu : ℕ) : Gic :=
  if !g.isEnabled || !g.cpuTakesInterrupts cpu then g.record (.updateIrq cpu 0 false)
  else (((g.enableStatus cpu).foldl (serveEntry cpu) g).presentPhysical cpu).presentVirtual cpu

/-- The combinational logic: the CPUs are served in the order of `mCpus`, from the one after
`mRoundRobin` on and around. -/
def combLogic : Gic := (g.cpus.rotate (g.roundRobin + 1)).foldl serveCpu g

/-- `genMaint`: queue the maintenance interrupt. -/
def genMaint (cpu : ℕ) : Gic :=
  if g.config.maintIrq ∈ g.cpuQueue cpu then g.combLogic
  else (g.pushCpu cpu g.config.maintIrq).combLogic

/-! ## Construction -/

/-- The controller as constructed: no CPU, and a memory nobody has written. -/
def built (config : GicConfig) (mem : ByteMemory) (behind : ℕ → ℕ → Word) (stack : ℕ → BitVec 8) : Gic where
  config := config
  mem := mem
  cpus := []
  cpuQueue := fun _ => []
  vCpuQueue := fun _ => []
  interruptOrigins := fun _ _ => 0
  pendingInterrupts := behind
  enableStatus := fun _ => []
  roundRobin := 0
  stack := stack
  log := []

/-- `connectCpu`: the vectors grow by one element. The two words of ones are written through a
pointer to words, so at four times the byte offset. -/
def connectCpu (g : Gic) (id : ℕ) : Gic :=
  let n := g.cpus.length
  let mem := storeWord g.mem (4 * (g.config.distBase / 4 + 1)) (3#32 ||| BitVec.ofNat 32 (n + 1) <<< 5)
  let mem := storeWord mem (4 * (g.config.vDistBase + 0x1000 * id + 0x30)) 0xffffffff#32
  let mem := storeWord mem (4 * (g.config.vDistBase + 0x1000 * id + 0x30 + 4)) 0xffffffff#32
  { g with
    mem := mem
    cpus := g.cpus ++ [id]
    cpuQueue := Function.update g.cpuQueue n []
    vCpuQueue := Function.update g.vCpuQueue n []
    interruptOrigins := Function.update g.interruptOrigins n fun _ => 0
    pendingInterrupts := Function.update g.pendingInterrupts n fun i =>
      if i < nGicInterrupts / 32 then 0#32 else g.pendingInterrupts n i
    enableStatus := Function.update g.enableStatus n [] }

/-- A controller with its CPUs connected. -/
def start (config : GicConfig) (mem : ByteMemory) (behind : ℕ → ℕ → Word) (stack : ℕ → BitVec 8)
    (ids : List ℕ) : Gic :=
  ids.foldl connectCpu (built config mem behind stack)

/-- A controller on a zeroed memory whose regions lie one after the other. -/
def small (ids : List ℕ) : Gic :=
  let config : GicConfig :=
    ⟨0#64, 0, 0x1000, 0x1000, 0x1000, 0x10000, 0x10000, 0x2000, 0x1000, 25#32⟩
  start config (fun _ => 0#8) (fun _ _ => 0#32) (fun _ => 0#8) ids

end Gic

end Vpsim.Peripherals
