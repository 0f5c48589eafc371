import Vpsim.Lib.Run
import Mathlib.Algebra.GroupWithZero.Nat
import Mathlib.Logic.Function.Basic

/-!
# The co-simulation of the main memory

The CPU thread pushes what it does to a priority queue and counts epochs. The memory thread `Run` pops the requests of
one epoch after the other and hands them to the simulators, which add up the delays. `FillBiases` ends an epoch of the
CPU thread and hands out the delays. Both threads see the two epochs and the queue, and lock a mutex for each half of
the delays. The completion of a device access goes to the queue of its device, where `GetDelay` takes it out.

A step of the model goes up to the next access to what both threads see. A run ends before `Stop` is called: `_Stopped`
stays false, so the memory thread never leaves `Run`. Epochs are counted without wrapping.
-/

namespace Vpsim.Cosim

open Vpsim.Lib

/-- `NotifyType`. -/
inductive NotifyType where
  | cpu
  | device
  | sesamCommand
  deriving DecidableEq

/-- `Req`. -/
structure Req where
  type : NotifyType
  phys : ℕ
  size : ℕ
  id : ℕ
  timeStamp : ℕ
  write : ℕ
  tag : ℕ
  epoch : ℕ
  fetch : ℕ
  deriving DecidableEq

/-- `compare_Req`: `u` is to be popped after `v`. -/
def compareReq (u v : Req) : Prop := v.epoch < u.epoch ∨ u.epoch = v.epoch ∧ v.timeStamp < u.timeStamp

instance (u v : Req) : Decidable (compareReq u v) := inferInstanceAs (Decidable (_ ∨ _))

/-- `MAX_QUANTUM`. -/
def maxQuantum : ℕ := 0xFFFF

/-- `EPOCHS`. -/
def epochs : ℕ := 2

/-- Time stamps have 64 bits. -/
def stampCount : ℕ := 2 ^ 64

/-- The size that the queues of `_Q_Accomplished` are constructed with. -/
def accomplishedSize : ℕ := 4096 * 4096

/-- Where the memory thread is in `Run`. -/
inductive RunPoint where
  | top
  | waitCpu (tmpMemEpoch : ℕ)
  | popFirst (tmpMemEpoch : ℕ)
  | putBack (k : Req)
  | setEpoch (epoch : ℕ)
  | lock (tmpMemEpoch : ℕ) (k : Req)
  | serve (tmpMemEpoch : ℕ) (k : Req) (simulator : ℕ)
  | popNext (tmpMemEpoch : ℕ)
  | requeue (tmpMemEpoch : ℕ) (k : Req)
  | leave (tmpMemEpoch epoch : ℕ)
  | unlock (tmpMemEpoch : ℕ) (exitLoop : Bool)
  | advance
  deriving DecidableEq

/-- Where the CPU thread is in `FillBiases`, with the number of CPUs and the time at the end of the call. -/
inductive FillPoint where
  | idle
  | waitMem (n now : ℕ)
  | lock (n now : ℕ)
  | bias (n now simulator cpu : ℕ)
  | unlock (now : ℕ)
  | setTime (now : ℕ)
  deriving DecidableEq

/-- A delay that `insert` adds for a request. -/
structure Delay where
  simulator : ℕ
  cpu : ℕ
  epoch : ℕ
  time : ℕ

/-- What `fillBiases` hands out for a CPU, in the call that makes the epoch of the CPU thread `epoch`. -/
structure Handout where
  simulator : ℕ
  cpu : ℕ
  epoch : ℕ
  time : ℕ

/-- The state of both threads. `mTimes` is by simulator, CPU and half. Of the completion queue of each device it has
the number of completions and whether `try_enqueue` finds no room. The last fields keep what has happened: the requests
that were pushed, those that were handed to each simulator, the delays, the number of CPUs of each call of `FillBiases`
and what was handed out. -/
structure CosimState where
  buffer : Req
  pq : List Req
  cpuEpoch : ℕ
  memEpoch : ℕ
  epochScTime : ℕ
  currentTimeStamp : ℕ
  focusOnROI : Bool
  halted : Bool
  mutex : ℕ → Bool
  mTimes : ℕ × ℕ × ℕ → ℕ
  accomplished : ℕ → ℕ
  refuses : ℕ → Bool
  run : RunPoint
  fill : FillPoint
  pushed : List Req
  handled : List (ℕ × Req)
  delays : List Delay
  sizes : List ℕ
  handed : List Handout

/-- A buffer that nothing was written to. -/
def emptyReq : Req := ⟨.cpu, 0, 0, 0, 0, 0, 0, 0, 0⟩

/-- The start of both threads, after `setFocusOnROI`. -/
def init (focusOnROI : Bool) : CosimState where
  buffer := emptyReq
  pq := []
  cpuEpoch := 0
  memEpoch := 0
  epochScTime := 0
  currentTimeStamp := 0
  focusOnROI := focusOnROI
  halted := focusOnROI
  mutex := fun _ => false
  mTimes := fun _ => 0
  accomplished := fun _ => 0
  refuses := fun _ => false
  run := .top
  fill := .idle
  pushed := []
  handled := []
  delays := []
  sizes := []
  handed := []

namespace CosimState

/-! ## The CPU thread -/

/-- A push of the buffer. -/
def push (r : Req) (s : CosimState) : CosimState := { s with buffer := r, pq := r :: s.pq, pushed := s.pushed ++ [r] }

/-- The time stamp of a notification. -/
def stamp (exec : ℕ) (s : CosimState) : ℕ := (exec + s.epochScTime) % stampCount

/-- The request of `proceedNotify`. -/
def cpuReq (cpu exec write phys size : ℕ) (s : CosimState) : Req :=
  { s.buffer with
    type := .cpu, id := cpu, write := write, phys := phys, size := size, fetch := 0, epoch := s.cpuEpoch,
    timeStamp := s.stamp exec }

/-- The request of `proceedNotifyFetchMiss`. -/
def fetchReq (cpu phys size : ℕ) (s : CosimState) : Req :=
  { s.buffer with
    type := .cpu, id := cpu, write := 0, fetch := 1, phys := phys, size := size, epoch := s.cpuEpoch,
    timeStamp := s.currentTimeStamp }

/-- The request of `proceedNotifyIO`. -/
def deviceReq (device exec write phys size tag : ℕ) (s : CosimState) : Req :=
  { s.buffer with
    type := .device, id := device, write := write, phys := phys, size := size, epoch := s.cpuEpoch,
    timeStamp := s.stamp exec, tag := tag }

/-- The time stamp of a command. -/
def commandStamp (start : Bool) (s : CosimState) : ℕ :=
  if start then (s.epochScTime + stampCount - 1) % stampCount else (s.epochScTime + maxQuantum + 1) % stampCount

/-- The request of `NotifySesamCommand`. -/
def commandReq (counter : ℕ) (start : Bool) (s : CosimState) : Req :=
  { s.buffer with
    type := .sesamCommand, tag := counter, write := start.toNat, epoch := s.cpuEpoch, timeStamp := s.commandStamp start }

/-- `Notify`: `proceedNotify` or `haltNotify`. -/
def notify (cpu exec write phys size : ℕ) (s : CosimState) : CosimState :=
  if s.halted then { s with currentTimeStamp := s.stamp exec }
  else push (s.cpuReq cpu exec write phys size) { s with currentTimeStamp := s.stamp exec }

/-- `NotifyFetchMiss`. -/
def notifyFetchMiss (cpu phys size : ℕ) (s : CosimState) : CosimState :=
  if s.halted then s else push (s.fetchReq cpu phys size) s

/-- `NotifyIO`. -/
def notifyIo (device exec write phys size tag : ℕ) (s : CosimState) : CosimState :=
  if s.halted then s else push (s.deviceReq device exec write phys size tag) s

/-- `NotifySesamCommand`. -/
def notifySesamCommand (counter : ℕ) (start : Bool) (s : CosimState) : CosimState :=
  push (s.commandReq counter start) { s with halted := if s.focusOnROI then !start else s.halted }

/-- `FillBiases` up to its first look at the epoch of the memory thread. -/
def fillBiases (n now : ℕ) (s : CosimState) : CosimState :=
  { s with
    cpuEpoch := s.cpuEpoch + 1
    fill := if s.halted then .setTime now else .waitMem n now
    sizes := s.sizes ++ [n] }

/-- `fillBiases` of a simulator, for one CPU. -/
def handOut (simulator cpu : ℕ) (s : CosimState) : CosimState :=
  let slot := (simulator, cpu, s.cpuEpoch % epochs)
  { s with
    mTimes := Function.update s.mTimes slot 0
    handed := s.handed ++ [⟨simulator, cpu, s.cpuEpoch, s.mTimes slot⟩] }

/-- A step of `FillBiases`. -/
def fillStep (simulators : ℕ) (s : CosimState) : Option CosimState :=
  match s.fill with
  | .idle => none
  | .waitMem n now => if s.memEpoch + epochs ≤ s.cpuEpoch then none else some { s with fill := .lock n now }
  | .lock n now =>
    if s.mutex (s.cpuEpoch % epochs) then none
    else some { s with mutex := Function.update s.mutex (s.cpuEpoch % epochs) true, fill := .bias n now 0 0 }
  | .bias n now j i =>
    if j < simulators then
      if i < n then some { s.handOut j i with fill := .bias n now j (i + 1) }
      else some { s with fill := .bias n now (j + 1) 0 }
    else some { s with fill := .unlock now }
  | .unlock now => some { s with mutex := Function.update s.mutex (s.cpuEpoch % epochs) false, fill := .setTime now }
  | .setTime now => some { s with epochScTime := now % stampCount, fill := .idle }

/-! ## The completions of device accesses -/

/-- The queue of a device has `n` completions. How its blocks are filled decides whether `try_enqueue` refuses the next
one, which it does only if there are as many as the queue was made for. -/
def withAccomplished (device n : ℕ) (refuses : Bool) (s : CosimState) : CosimState :=
  { s with
    accomplished := Function.update s.accomplished device n
    refuses := Function.update s.refuses device (refuses && decide (accomplishedSize ≤ n)) }

/-- `IOAccessCosim::GetDelay`, which takes a completion out if there is one. -/
def getDelay (device : ℕ) (refuses : Bool) (s : CosimState) : CosimState :=
  s.withAccomplished device (s.accomplished device - 1) refuses

/-! ## The memory thread -/

/-- `try_pop` of a request: one that no other is to be popped before. -/
def tryPop (k : Req) (s : CosimState) : Option CosimState :=
  if k ∈ s.pq ∧ ∀ r ∈ s.pq, ¬ compareReq k r then some { s with pq := s.pq.erase k } else none

/-- `insert` of a CPU simulator: the transport adds a delay. -/
def insert (simulator : ℕ) (k : Req) (delay : ℕ) (s : CosimState) : CosimState :=
  let slot := (simulator, k.id, s.memEpoch % epochs)
  { s with
    mTimes := Function.update s.mTimes slot (s.mTimes slot + delay)
    delays := s.delays ++ [⟨simulator, k.id, s.memEpoch, delay⟩] }

/-- `insert` of the `_IOAccessPtr` of a simulator, which enqueues the completion. -/
def insertIo (k : Req) (refuses : Bool) (s : CosimState) : CosimState :=
  s.withAccomplished k.id (s.accomplished k.id + 1) refuses

/-- One request is handed to one simulator. -/
def handle (simulator : ℕ) (k : Req) (delay : ℕ) (refuses : Bool) (s : CosimState) : CosimState :=
  let s' :=
    if k.type = .cpu then s.insert simulator k delay
    else if k.type = .device then s.insertIo k refuses
    else s
  { s' with handled := s.handled ++ [(simulator, k)] }

/-- A step of `Run`, which pops `k` if it pops a request, and adds `delay` or fills the blocks of a queue if it inserts
one. -/
def runStep (simulators : ℕ) (k : Req) (delay : ℕ) (refuses : Bool) (s : CosimState) : Option CosimState :=
  match s.run with
  | .top => some { s with run := .waitCpu s.memEpoch }
  | .waitCpu tmp => if s.cpuEpoch ≤ tmp then none else some { s with run := .popFirst tmp }
  | .popFirst tmp =>
    if s.pq = [] then some { s with run := .advance }
    else (s.tryPop k).map fun s => { s with run := if tmp ≠ k.epoch then .putBack k else .lock tmp k }
  | .putBack k => some { s with pq := k :: s.pq, run := .setEpoch k.epoch }
  | .setEpoch epoch => some { s with memEpoch := epoch, run := .top }
  | .lock tmp k =>
    if s.mutex (tmp % epochs) then none
    else some { s with mutex := Function.update s.mutex (tmp % epochs) true, run := .serve tmp k 0 }
  | .serve tmp k i =>
    if i < simulators then
      -- `insert` calls `try_enqueue` again and again until there is room
      if k.type = .device ∧ s.refuses k.id = true then none
      else some { s.handle i k delay refuses with run := .serve tmp k (i + 1) }
    -- after a command the loop is left before the epoch is over
    else some { s with run := if k.type = .sesamCommand then .unlock tmp true else .popNext tmp }
  | .popNext tmp =>
    if s.pq = [] then some { s with run := .unlock tmp false }
    else (s.tryPop k).map fun s => { s with run := if tmp ≠ k.epoch then .requeue tmp k else .serve tmp k 0 }
  | .requeue tmp k => some { s with pq := k :: s.pq, run := .leave tmp k.epoch }
  | .leave tmp epoch => some { s with memEpoch := epoch, run := .unlock tmp true }
  | .unlock tmp exitLoop =>
    some { s with
      mutex := Function.update s.mutex (tmp % epochs) false
      run := if exitLoop then .top else .advance }
  | .advance => some { s with memEpoch := s.memEpoch + 1, run := .top }

end CosimState

/-! ## Both threads -/

/-- A call by the CPU thread. -/
inductive Call where
  | notify (cpu exec write phys size : ℕ)
  | notifyFetchMiss (cpu phys size : ℕ)
  | notifyIo (device exec write phys size tag : ℕ)
  | notifySesamCommand (counter : ℕ) (start : Bool)
  | fillBiases (n now : ℕ)

/-- What a call does at once. -/
def Call.after (s : CosimState) : Call → CosimState
  | .notify cpu exec write phys size => s.notify cpu exec write phys size
  | .notifyFetchMiss cpu phys size => s.notifyFetchMiss cpu phys size
  | .notifyIo device exec write phys size tag => s.notifyIo device exec write phys size tag
  | .notifySesamCommand counter start => s.notifySesamCommand counter start
  | .fillBiases n now => s.fillBiases n now

/-- A step of one of the threads, or a call of `GetDelay`. -/
inductive Action where
  | call (c : Call)
  | getDelay (device : ℕ) (refuses : Bool)
  | fill
  | run (k : Req) (delay : ℕ) (refuses : Bool)

/-- The state after a step, if the thread can take it. -/
def after (simulators : ℕ) (s : CosimState) : Action → Option CosimState
  | .call c => if s.fill = .idle then some (c.after s) else none
  | .getDelay device refuses => some (s.getDelay device refuses)
  | .fill => s.fillStep simulators
  | .run k delay refuses => s.runStep simulators k delay refuses

/-- One step of a run, which ends at one that its thread cannot take. -/
def step (simulators : ℕ) (a : Action) : EStateM Unit CosimState PUnit := fun s =>
  match after simulators s a with
  | some s' => .ok ⟨⟩ s'
  | none => .error () s

theorem step_eq_ok {simulators : ℕ} {a : Action} {s s' : CosimState} :
    step simulators a s = .ok ⟨⟩ s' ↔ after simulators s a = some s' := by
  unfold step
  cases h : after simulators s a with
  | none => simp
  | some t => simp

end Vpsim.Cosim
