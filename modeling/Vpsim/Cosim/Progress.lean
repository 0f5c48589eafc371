import Vpsim.Cosim.Order
import Mathlib.Data.List.Count

/-!
# The threads go on

Neither thread waits for ever for the other: as long as no call is made, each step of a thread lowers a rank, and where
neither can take a step the memory thread has handed out every epoch that the CPU thread has left. But for one case: if
the completion queue of a device is full, the memory thread waits until `GetDelay` takes a completion out.
-/

namespace Vpsim.Cosim

open Vpsim.Lib

variable {simulators : ℕ} {s s' : CosimState} {k r : Req}

/-! ## The mutexes -/

/-- The memory thread has locked the mutex of a half. -/
def RunPoint.Locks (half : ℕ) : RunPoint → Prop
  | .serve tmp _ _ => tmp % epochs = half
  | .popNext tmp => tmp % epochs = half
  | .requeue tmp _ => tmp % epochs = half
  | .leave tmp _ => tmp % epochs = half
  | .unlock tmp _ => tmp % epochs = half
  | _ => False

/-- The CPU thread has locked the mutex of a half. -/
def FillPoint.Locks (cpuEpoch half : ℕ) : FillPoint → Prop
  | .bias _ _ _ _ => cpuEpoch % epochs = half
  | .unlock _ => cpuEpoch % epochs = half
  | _ => False

/-- A mutex is locked while one of the threads has locked it, which then is the only one. -/
structure Locked (s : CosimState) : Prop where
  mutex : ∀ half, s.mutex half = true ↔ s.run.Locks half ∨ s.fill.Locks s.cpuEpoch half
  exclusive : ∀ half, s.run.Locks half → ¬ s.fill.Locks s.cpuEpoch half

/-- A step that locks and unlocks nothing keeps the mutexes. -/
theorem Locked.frame (h : Locked s) (hmutex : s'.mutex = s.mutex) (hrun : ∀ half, s'.run.Locks half ↔ s.run.Locks half)
    (hfill : ∀ half, s'.fill.Locks s'.cpuEpoch half ↔ s.fill.Locks s.cpuEpoch half) : Locked s' := by
  constructor
  · intro half
    rw [hmutex, hrun, hfill]
    exact h.mutex half
  · intro half
    rw [hrun, hfill]
    exact h.exclusive half

/-- When the memory thread locks the mutex of a half that is free, it is the only one to have it. -/
theorem Locked.lockRun (h : Locked s) {half : ℕ} (hfree : s.mutex half = false) (hnone : ∀ p, ¬ s.run.Locks p)
    {run : RunPoint} (hrun : ∀ p, run.Locks p ↔ half = p) :
    Locked { s with mutex := Function.update s.mutex half true, run := run } := by
  have hopen : ¬ s.fill.Locks s.cpuEpoch half := fun hlocks => by
    rw [(h.mutex half).2 (.inr hlocks)] at hfree
    cases hfree
  constructor
  · intro p
    change Function.update s.mutex half true p = true ↔ run.Locks p ∨ s.fill.Locks s.cpuEpoch p
    rw [hrun]
    by_cases hp : p = half
    · subst hp
      rw [Function.update_self]
      exact iff_of_true rfl (.inl rfl)
    · rw [Function.update_of_ne hp, h.mutex, or_iff_right (hnone p), or_iff_right (Ne.symm hp)]
  · intro p hp
    obtain rfl := (hrun p).1 hp
    exact hopen

/-- When the memory thread unlocks the mutex, no thread has it. -/
theorem Locked.unlockRun (h : Locked s) {half : ℕ} (hlocks : ∀ p, s.run.Locks p ↔ half = p)
    {run : RunPoint} (hrun : ∀ p, ¬ run.Locks p) :
    Locked { s with mutex := Function.update s.mutex half false, run := run } := by
  constructor
  · intro p
    change Function.update s.mutex half false p = true ↔ run.Locks p ∨ s.fill.Locks s.cpuEpoch p
    rw [or_iff_right (hrun p)]
    by_cases hp : p = half
    · subst hp
      rw [Function.update_self]
      exact iff_of_false Bool.false_ne_true (h.exclusive p ((hlocks p).2 rfl))
    · rw [Function.update_of_ne hp, h.mutex, hlocks, or_iff_right (Ne.symm hp)]
  · exact fun p hp => absurd hp (hrun p)

/-- Each step of the memory thread keeps the mutexes. -/
theorem Locked.runStep (h : Locked s) (hstep : RunStep simulators s s') : Locked s' := by
  cases hstep with
  | lock tmp k hrun hfree =>
    refine h.lockRun hfree ?_ fun p => Iff.rfl
    rw [hrun]
    exact fun _ => not_false
  | unlock tmp exitLoop hrun =>
    refine h.unlockRun ?_ ?_
    · rw [hrun]
      exact fun p => Iff.rfl
    · cases exitLoop <;> exact fun _ => not_false
  | serve tmp k i delay refuses hrun hlt hroom =>
    obtain ⟨times, delays, accomplished, full, hhandle⟩ := handle_frame i delay refuses k s
    rw [hhandle]
    refine h.frame rfl ?_ fun _ => Iff.rfl
    rw [hrun]
    exact fun _ => Iff.rfl
  | top hrun | waitCpu _ hrun _ | popNone _ hrun _ | popOther _ _ hrun _ _ _ | popFirst _ hrun _ _ | putBack _ hrun
  | setEpoch _ hrun | served _ _ _ hrun _ _ | command _ _ _ hrun _ _ | popLast _ hrun _ | popLater _ _ hrun _ _ _
  | popNext _ hrun _ _ | requeue _ _ hrun | leave _ _ hrun | advance hrun =>
    refine h.frame rfl ?_ fun _ => Iff.rfl
    rw [hrun]
    exact fun _ => Iff.rfl

/-- Each step of `FillBiases` keeps the mutexes. -/
theorem Locked.fillStep (h : Locked s) (hstep : FillStep simulators s s') : Locked s' := by
  cases hstep with
  | lock n now hfill hfree =>
    have hopen : ¬ s.run.Locks (s.cpuEpoch % epochs) := fun hlocks => by
      rw [(h.mutex _).2 (.inl hlocks)] at hfree
      cases hfree
    have hnone (p : ℕ) : ¬ s.fill.Locks s.cpuEpoch p := by
      rw [hfill]
      exact not_false
    constructor
    · intro p
      change Function.update s.mutex (s.cpuEpoch % epochs) true p = true ↔ s.run.Locks p ∨ s.cpuEpoch % epochs = p
      by_cases hp : p = s.cpuEpoch % epochs
      · subst hp
        rw [Function.update_self]
        exact iff_of_true rfl (.inr rfl)
      · rw [Function.update_of_ne hp, h.mutex, or_iff_left (hnone p), or_iff_left (Ne.symm hp)]
    · exact fun p hp heq => hopen (heq ▸ hp)
  | unlock now hfill =>
    have hlocks (p : ℕ) : s.fill.Locks s.cpuEpoch p ↔ s.cpuEpoch % epochs = p := by
      rw [hfill]
      exact Iff.rfl
    constructor
    · intro p
      change Function.update s.mutex (s.cpuEpoch % epochs) false p = true ↔ s.run.Locks p ∨ False
      rw [or_false]
      by_cases hp : p = s.cpuEpoch % epochs
      · subst hp
        rw [Function.update_self]
        exact iff_of_false Bool.false_ne_true fun hrun => h.exclusive _ hrun ((hlocks _).2 rfl)
      · rw [Function.update_of_ne hp, h.mutex, hlocks, or_iff_left (Ne.symm hp)]
    · exact fun _ _ => not_false
  | waitMem _ _ hfill _ | bias _ _ _ _ hfill _ _ | nextSimulator _ _ _ _ hfill _ _ | biased _ _ _ _ hfill _
  | setTime _ hfill =>
    refine h.frame rfl (fun _ => Iff.rfl) ?_
    rw [hfill]
    exact fun _ => Iff.rfl

/-- A call locks nothing at once. -/
theorem Locked.callStep (h : Locked s) (hidle : s.fill = .idle) (hstep : CallStep s s') : Locked s' := by
  cases hstep with
  | dropped stamp => exact h.frame rfl (fun _ => Iff.rfl) fun _ => Iff.rfl
  | pushed r stamp halted hr => exact h.frame rfl (fun _ => Iff.rfl) fun _ => Iff.rfl
  | fillBiases n now =>
    refine h.frame rfl (fun _ => Iff.rfl) ?_
    rw [hidle]
    unfold CosimState.fillBiases
    dsimp only
    split <;> exact fun _ => Iff.rfl

/-- Each step keeps the mutexes. -/
theorem Locked.step {a : Action} (h : Locked s) (hstep : Step simulators s a s') : Locked s' := by
  cases hstep with
  | call c hidle => exact h.callStep hidle (callStep_after c s)
  | getDelay device refuses => exact h.frame rfl (fun _ => Iff.rfl) fun _ => Iff.rfl
  | fill _ hfill => exact h.fillStep hfill
  | run k delay refuses _ hrun => exact h.runStep hrun

/-- At the start no mutex is locked. -/
theorem locked_init (focusOnROI : Bool) : Locked (init focusOnROI) :=
  ⟨fun _ => iff_of_false Bool.false_ne_true (or_self_iff.not.2 not_false), fun _ h => h.elim⟩

/-! ## Where neither thread can take a step -/

/-- In a queue that is not empty some request is to be popped first. -/
theorem exists_first {pq : List Req} (h : pq ≠ []) : ∃ k ∈ pq, First k pq := by
  induction pq with
  | nil => exact absurd rfl h
  | cons r pq ih =>
    by_cases hpq : pq = []
    · subst hpq
      refine ⟨r, List.mem_cons_self, fun x hx => ?_⟩
      rw [List.mem_singleton.1 hx]
      exact compareReq_irrefl r
    · obtain ⟨k, hk, hfirst⟩ := ih hpq
      by_cases hlater : compareReq k r
      · refine ⟨r, List.mem_cons_self, fun x hx => ?_⟩
        rcases List.mem_cons.1 hx with rfl | hx
        · exact compareReq_irrefl x
        · have hkx := hfirst x hx
          unfold compareReq at hkx hlater ⊢
          omega
      · refine ⟨k, List.mem_cons_of_mem r hk, fun x hx => ?_⟩
        rcases List.mem_cons.1 hx with rfl | hx
        · exact hlater
        · exact hfirst x hx

/-- Neither thread can take a step. -/
def Stuck (simulators : ℕ) (s : CosimState) : Prop :=
  s.fillStep simulators = none ∧ ∀ k delay refuses, s.runStep simulators k delay refuses = none

/-- The memory thread tries to enqueue a completion, and there is no room. -/
def WaitsForRoom (simulators : ℕ) (s : CosimState) : Prop :=
  ∃ tmp k i, s.run = .serve tmp k i ∧ i < simulators ∧ k.type = .device ∧ s.refuses k.id = true

/-- A pop of the first request is possible. -/
theorem exists_tryPop (h : s.pq ≠ []) : ∃ k s', s.tryPop k = some s' := by
  obtain ⟨k, hk, hfirst⟩ := exists_first h
  exact ⟨k, { s with pq := s.pq.erase k }, if_pos ⟨hk, hfirst⟩⟩

/-- A memory thread that cannot take a step waits for the CPU thread, for a mutex or for room. -/
theorem run_of_stuck (h : ∀ k delay refuses, s.runStep simulators k delay refuses = none) :
    (∃ tmp, s.run = .waitCpu tmp ∧ s.cpuEpoch ≤ tmp) ∨
      (∃ tmp k, s.run = .lock tmp k ∧ s.mutex (tmp % epochs) = true) ∨ WaitsForRoom simulators s := by
  cases hrun : s.run with
  | waitCpu tmp =>
    have hnone := h emptyReq 0 false
    unfold CosimState.runStep at hnone
    rw [hrun] at hnone
    dsimp only at hnone
    split at hnone
    · rename_i hle
      exact .inl ⟨tmp, rfl, hle⟩
    · cases hnone
  | lock tmp k =>
    have hnone := h emptyReq 0 false
    unfold CosimState.runStep at hnone
    rw [hrun] at hnone
    dsimp only at hnone
    split at hnone
    · rename_i hlocked
      exact .inr (.inl ⟨tmp, k, rfl, hlocked⟩)
    · cases hnone
  | popFirst tmp | popNext tmp =>
    by_cases hempty : s.pq = []
    · have hnone := h emptyReq 0 false
      unfold CosimState.runStep at hnone
      rw [hrun] at hnone
      dsimp only at hnone
      rw [if_pos hempty] at hnone
      cases hnone
    · obtain ⟨k, t, hpop⟩ := exists_tryPop hempty
      have hnone := h k 0 false
      unfold CosimState.runStep at hnone
      rw [hrun] at hnone
      dsimp only at hnone
      rw [if_neg hempty, hpop] at hnone
      cases hnone
  | serve tmp k i =>
    have hnone := h emptyReq 0 false
    unfold CosimState.runStep at hnone
    rw [hrun] at hnone
    dsimp only at hnone
    split at hnone
    · rename_i hlt
      split at hnone
      · rename_i hfull
        exact .inr (.inr ⟨tmp, k, i, hrun, hlt, hfull⟩)
      · cases hnone
    · cases hnone
  | top | putBack k | setEpoch e | requeue tmp k | leave tmp e | unlock tmp b | advance =>
    have hnone := h emptyReq 0 false
    unfold CosimState.runStep at hnone
    rw [hrun] at hnone
    cases hnone

/-- A CPU thread that cannot take a step is outside of `FillBiases` or waits for the memory thread or for a mutex. -/
theorem fill_of_stuck (h : s.fillStep simulators = none) :
    s.fill = .idle ∨ (∃ n now, s.fill = .waitMem n now ∧ s.memEpoch + epochs ≤ s.cpuEpoch) ∨
      ∃ n now, s.fill = .lock n now ∧ s.mutex (s.cpuEpoch % epochs) = true := by
  unfold CosimState.fillStep at h
  cases hfill : s.fill with
  | idle => exact .inl rfl
  | waitMem n now =>
    rw [hfill] at h
    dsimp only at h
    split at h
    · rename_i hfar
      exact .inr (.inl ⟨n, now, rfl, hfar⟩)
    · cases h
  | lock n now =>
    rw [hfill] at h
    dsimp only at h
    split at h
    · rename_i hlocked
      exact .inr (.inr ⟨n, now, rfl, hlocked⟩)
    · cases h
  | bias n now j i =>
    rw [hfill] at h
    dsimp only at h
    split at h
    · split at h <;> cases h
    · cases h
  | unlock now | setTime now =>
    rw [hfill] at h
    cases h

/-- Everything that was pushed in an epoch that the CPU thread has left was handed out. -/
structure Settled (simulators : ℕ) (s : CosimState) : Prop where
  fill : s.fill = .idle
  memEpoch : s.memEpoch = s.cpuEpoch
  handled : ∀ j < simulators, ∀ r, r.epoch < s.cpuEpoch → s.handled.count (j, r) = s.pushed.count r

/-- The threads never wait for each other: where neither can take a step, everything is settled or the memory thread
waits for room. -/
theorem Ordered.settled (h : Ordered simulators s) (hlocked : Locked s) (hstuck : Stuck simulators s) :
    Settled simulators s ∨ WaitsForRoom simulators s := by
  have hpoint := h.point
  have hle := h.memEpoch_le
  have hlock (half : ℕ) (hmutex : s.mutex half = true) (hrun : ¬ s.run.Locks half) :
      s.fill.Locks s.cpuEpoch half := ((hlocked.mutex half).1 hmutex).resolve_left hrun
  rcases run_of_stuck hstuck.2 with ⟨tmp, hrun, hwait⟩ | ⟨tmp, k, hrun, hmutex⟩ | hwaits
  · rw [hrun] at hpoint
    have hmem : s.memEpoch = s.cpuEpoch := le_antisymm hle (hpoint.symm ▸ hwait)
    have hidle : s.fill = .idle := by
      rcases fill_of_stuck hstuck.1 with hidle | ⟨n, now, hfill, hfar⟩ | ⟨n, now, hfill, hmutex⟩
      · exact hidle
      · rw [hmem] at hfar
        exact absurd hfar (Nat.not_le_of_lt (Nat.lt_add_of_pos_right Nat.two_pos))
      · have hlocks := hlock _ hmutex (by rw [hrun]; exact not_false)
        rw [hfill] at hlocks
        exact hlocks.elim
    refine .inl ⟨hidle, hmem, fun j hj r hr => ?_⟩
    have hcount := h.conserved j hj r
    have hnone : s.pq.count r = 0 := by
      apply List.count_eq_zero.2
      intro hmem'
      have hlow := (h.pq_epoch r hmem').1
      omega
    rw [hrun] at hcount
    change _ = _ + ([] ++ s.pq).count r at hcount
    rw [List.nil_append, hnone] at hcount
    exact hcount.symm
  · have hlocks := hlock _ hmutex (by rw [hrun]; exact not_false)
    rcases fill_of_stuck hstuck.1 with hfill | ⟨n, now, hfill, _⟩ | ⟨n, now, hfill, _⟩ <;> rw [hfill] at hlocks <;>
      exact hlocks.elim
  · exact .inr hwaits

/-! ## Room for completions -/

/-- A request that a device pushed. -/
def Req.IsFor (device : ℕ) (r : Req) : Prop := r.type = .device ∧ r.id = device

instance (device : ℕ) (r : Req) : Decidable (r.IsFor device) := inferInstanceAs (Decidable (_ ∧ _))

/-- The number of requests of a device. -/
def ioCount (device : ℕ) (reqs : List Req) : ℕ := reqs.countP fun r => r.IsFor device

/-- The completions that the memory thread is still to enqueue for the request it has popped. -/
def RunPoint.inserts (simulators device : ℕ) : RunPoint → ℕ
  | .serve _ k i => (simulators - i) * ioCount device [k]
  | p => simulators * ioCount device p.held

/-- The completions of a device that are in its queue or will be. -/
def completions (simulators device : ℕ) (s : CosimState) : ℕ :=
  s.accomplished device + (s.run.inserts simulators device + simulators * ioCount device s.pq)

/-- The queue of each device has room for the completions that are still to be enqueued. -/
def HasRoom (simulators : ℕ) (s : CosimState) : Prop := ∀ device, completions simulators device s ≤ accomplishedSize

/-- A queue refuses a completion only if there are as many as it was made for. -/
def RefusesFull (s : CosimState) : Prop := ∀ device, s.refuses device = true → accomplishedSize ≤ s.accomplished device

/-- Setting the number of completions of a queue decides again whether it refuses the next one. -/
theorem RefusesFull.withAccomplished (h : RefusesFull s) (device n : ℕ) (refuses : Bool) :
    RefusesFull (s.withAccomplished device n refuses) := by
  intro other hrefuses
  unfold CosimState.withAccomplished at hrefuses ⊢
  dsimp only at hrefuses ⊢
  rcases eq_or_ne other device with rfl | hne
  · rw [Function.update_self, Bool.and_eq_true, decide_eq_true_eq] at hrefuses
    rw [Function.update_self]
    exact hrefuses.2
  · rw [Function.update_of_ne hne] at hrefuses ⊢
    exact h other hrefuses

/-- Handing out a request keeps that only full queues refuse. -/
theorem RefusesFull.handle (h : RefusesFull s) (i delay : ℕ) (refuses : Bool) (k : Req) :
    RefusesFull (s.handle i k delay refuses) := by
  unfold CosimState.handle
  split
  · exact h
  · split
    · exact h.withAccomplished k.id (s.accomplished k.id + 1) refuses
    · exact h

/-- A call by the CPU thread leaves the queues. -/
theorem RefusesFull.callStep (h : RefusesFull s) (hstep : CallStep s s') : RefusesFull s' := by
  cases hstep with
  | _ => exact h

/-- Every step keeps that only full queues refuse. -/
theorem RefusesFull.step {a : Action} (h : RefusesFull s) (hstep : Step simulators s a s') : RefusesFull s' := by
  cases hstep with
  | call c hidle => exact h.callStep (callStep_after c s)
  | getDelay device refuses => exact h.withAccomplished device _ refuses
  | fill _ hfill =>
    cases hfill with
    | _ => exact h
  | run k delay refuses _ hrun =>
    cases hrun with
    | serve tmp k i delay refuses hrun hlt hroom => exact h.handle i delay refuses k
    | _ => exact h

/-- A request that is popped is counted where it is held. -/
theorem ioCount_pop (hmem : k ∈ s.pq) (device : ℕ) :
    ioCount device [k] + ioCount device (s.pq.erase k) = ioCount device s.pq := by
  unfold ioCount
  rw [← List.countP_append]
  exact ((List.perm_cons_erase hmem).countP_eq _).symm

/-- A request that is put back is counted in the queue. -/
theorem ioCount_cons (device : ℕ) (pq : List Req) :
    ioCount device (k :: pq) = ioCount device [k] + ioCount device pq := by
  unfold ioCount
  rw [← List.countP_append, List.singleton_append]

/-- Handing out a request enqueues its completion, if it is that of a device. -/
theorem accomplished_handle (i delay : ℕ) (refuses : Bool) (device : ℕ) :
    (s.handle i k delay refuses).accomplished device = s.accomplished device + ioCount device [k] := by
  unfold CosimState.handle ioCount
  rw [List.countP_singleton]
  by_cases htype : k.type = .cpu
  · have hnot : ¬ k.IsFor device := fun hfor => by
      rw [hfor.1] at htype
      cases htype
    rw [if_pos htype, if_neg (by rwa [decide_eq_true_eq])]
    rfl
  · rw [if_neg htype]
    by_cases hdevice : k.type = .device
    · rw [if_pos hdevice]
      change Function.update s.accomplished k.id (s.accomplished k.id + 1) device = _
      rcases eq_or_ne device k.id with rfl | hne
      · rw [Function.update_self, if_pos (decide_eq_true ⟨hdevice, rfl⟩)]
      · have hnot : ¬ k.IsFor device := fun hfor => hne hfor.2.symm
        rw [Function.update_of_ne hne, if_neg (by rwa [decide_eq_true_eq])]
        rfl
    · have hnot : ¬ k.IsFor device := fun hfor => hdevice hfor.1
      rw [if_neg hdevice, if_neg (by rwa [decide_eq_true_eq])]
      rfl

/-- The memory thread makes completions only of the requests that wait. -/
theorem RunStep.completions_eq (h : RunStep simulators s s') (device : ℕ) :
    completions simulators device s' = completions simulators device s := by
  unfold completions
  cases h with
  | serve tmp k i delay refuses hrun hlt hroom =>
    have haccomplished := accomplished_handle (s := s) (k := k) i delay refuses device
    obtain ⟨times, delays, accomplished, full, hhandle⟩ := handle_frame i delay refuses k s
    rw [hhandle] at haccomplished ⊢
    have hleft : simulators - i = simulators - (i + 1) + 1 := by omega
    have hmul : (simulators - i) * ioCount device [k] =
        (simulators - (i + 1)) * ioCount device [k] + ioCount device [k] := by
      rw [hleft, Nat.add_mul, Nat.one_mul]
    change accomplished device = _ at haccomplished
    rw [hrun]
    change accomplished device + ((simulators - (i + 1)) * ioCount device [k] + simulators * ioCount device s.pq) =
      s.accomplished device + ((simulators - i) * ioCount device [k] + simulators * ioCount device s.pq)
    rw [haccomplished, hmul]
    omega
  | served tmp k i hrun hle htype | command tmp k i hrun hle htype =>
    have hnone : (simulators - i) * ioCount device [k] = 0 := by
      rw [Nat.sub_eq_zero_of_le hle, Nat.zero_mul]
    rw [hrun]
    change s.accomplished device + (simulators * 0 + simulators * ioCount device s.pq) =
      s.accomplished device + ((simulators - i) * ioCount device [k] + simulators * ioCount device s.pq)
    rw [hnone, Nat.mul_zero]
  | popOther tmp k hrun hmem hfirst hother | popFirst k hrun hmem hfirst | popLater tmp k hrun hmem hfirst hother
  | popNext k hrun hmem hfirst =>
    rw [hrun]
    change s.accomplished device + (simulators * ioCount device [k] + simulators * ioCount device (s.pq.erase k)) =
      s.accomplished device + (simulators * 0 + simulators * ioCount device s.pq)
    rw [← ioCount_pop hmem, Nat.mul_add, Nat.mul_zero, Nat.zero_add]
  | putBack k hrun | requeue tmp k hrun =>
    rw [hrun]
    change s.accomplished device + (simulators * 0 + simulators * ioCount device (k :: s.pq)) =
      s.accomplished device + (simulators * ioCount device [k] + simulators * ioCount device s.pq)
    rw [ioCount_cons, Nat.mul_add, Nat.mul_zero, Nat.zero_add]
  | top hrun | waitCpu _ hrun _ | popNone _ hrun _ | setEpoch _ hrun | lock _ _ hrun _ | popLast _ hrun _
  | leave _ _ hrun | advance hrun =>
    rw [hrun]
    rfl
  | unlock tmp exitLoop hrun =>
    rw [hrun]
    cases exitLoop <;> rfl

/-- With room for all completions the memory thread does not wait for it. -/
theorem HasRoom.not_waitsForRoom (h : HasRoom simulators s) (hfull : RefusesFull s) : ¬ WaitsForRoom simulators s := by
  rintro ⟨tmp, k, i, hrun, hlt, htype, hrefuses⟩
  have hroom := h k.id
  have hsize := hfull k.id hrefuses
  have hone : ioCount k.id [k] = 1 := by
    unfold ioCount
    rw [List.countP_singleton, if_pos (decide_eq_true ⟨htype, rfl⟩)]
  unfold completions at hroom
  rw [hrun] at hroom
  change _ + ((simulators - i) * ioCount k.id [k] + _) ≤ _ at hroom
  rw [hone, Nat.mul_one] at hroom
  omega

/-! ## The rank -/

/-- A step that is no call. -/
def NoCall : Action → Prop
  | .call _ => False
  | .getDelay _ _ => False
  | _ => True

/-- One if the request is of an epoch that the CPU thread has left. -/
def late (cpuEpoch : ℕ) (r : Req) : ℕ := if r.epoch < cpuEpoch then 1 else 0

/-- The waiting requests of the epochs that the CPU thread has left. -/
def lateCount (cpuEpoch : ℕ) : List Req → ℕ
  | [] => 0
  | r :: pq => late cpuEpoch r + lateCount cpuEpoch pq

theorem lateCount_erase {pq : List Req} (h : k ∈ pq) (cpuEpoch : ℕ) :
    lateCount cpuEpoch (pq.erase k) + late cpuEpoch k = lateCount cpuEpoch pq := by
  induction pq with
  | nil => cases h
  | cons r pq ih =>
    by_cases hr : r = k
    · subst hr
      rw [List.erase_cons_head, Nat.add_comm]
      rfl
    · have hmem : k ∈ pq := (List.mem_cons.1 h).resolve_left (Ne.symm hr)
      rw [List.erase_cons_tail (by simpa using hr)]
      change late cpuEpoch r + lateCount cpuEpoch (pq.erase k) + _ = late cpuEpoch r + lateCount cpuEpoch pq
      rw [Nat.add_assoc, ih hmem]

/-- What a request that was popped costs until it is put back, in the unit of a late request. -/
def weight (simulators : ℕ) : ℕ := simulators + 6

/-- The steps of the memory thread until its epoch grows or a late request leaves the queue. -/
def RunPoint.cost (simulators cpuEpoch : ℕ) : RunPoint → ℕ
  | .top => 5
  | .waitCpu _ => 4
  | .popFirst _ => 3
  | .putBack k => 2 + weight simulators * late cpuEpoch k
  | .setEpoch _ => 1
  | .lock _ _ => simulators + 8
  | .serve _ _ i => simulators - i + 7
  | .popNext _ => 3
  | .requeue _ k => 2 + weight simulators * late cpuEpoch k
  | .leave _ _ => 1
  | .unlock _ true => 6
  | .unlock _ false => 2
  | .advance => 1

/-- The steps of `FillBiases` that are left. -/
def FillPoint.cost (simulators : ℕ) : FillPoint → ℕ
  | .idle => 0
  | .waitMem n _ => simulators * (n + 1) + n + 5
  | .lock n _ => simulators * (n + 1) + n + 4
  | .bias n _ j i => (simulators - j) * (n + 1) + (n - i) + 3
  | .unlock _ => 2
  | .setTime _ => 1

/-- What each step that is no call lowers. -/
def rank (simulators : ℕ) (s : CosimState) : ℕ :=
  6 * (s.cpuEpoch - s.memEpoch) + weight simulators * lateCount s.cpuEpoch s.pq + s.run.cost simulators s.cpuEpoch +
    s.fill.cost simulators

/-- A step of `FillBiases` lowers the rank. -/
theorem FillStep.rank_lt (h : FillStep simulators s s') : rank simulators s' < rank simulators s := by
  have hgoes {p : FillPoint} (hlt : p.cost simulators < s.fill.cost simulators) :
      6 * (s.cpuEpoch - s.memEpoch) + weight simulators * lateCount s.cpuEpoch s.pq +
        s.run.cost simulators s.cpuEpoch + p.cost simulators < rank simulators s := Nat.add_lt_add_left hlt _
  cases h with
  | waitMem n now hfill hnear =>
    refine hgoes ?_
    rw [hfill]
    exact Nat.lt_succ_self _
  | lock n now hfill hfree =>
    refine hgoes ?_
    rw [hfill]
    exact Nat.lt_succ_self _
  | bias n now j i hfill hj hi =>
    refine hgoes (p := .bias n now j (i + 1)) ?_
    rw [hfill]
    dsimp only [FillPoint.cost]
    omega
  | nextSimulator n now j i hfill hj hi =>
    refine hgoes (p := .bias n now (j + 1) 0) ?_
    rw [hfill]
    obtain ⟨m, hm⟩ := Nat.exists_eq_add_of_lt hj
    have hleft : simulators - j = m + 1 := by omega
    have hnext : simulators - (j + 1) = m := by omega
    dsimp only [FillPoint.cost]
    rw [hleft, hnext, Nat.add_mul, Nat.one_mul]
    omega
  | biased n now j i hfill hj =>
    refine hgoes (p := .unlock now) ?_
    rw [hfill]
    dsimp only [FillPoint.cost]
    omega
  | unlock now hfill =>
    refine hgoes ?_
    rw [hfill]
    exact Nat.lt_succ_self 1
  | setTime now hfill =>
    refine hgoes ?_
    rw [hfill]
    exact Nat.one_pos

/-- A step of the memory thread lowers the rank. -/
theorem RunStep.rank_lt (h : RunStep simulators s s') (hordered : Ordered simulators s) :
    rank simulators s' < rank simulators s := by
  have hpoint := hordered.point
  have hle := hordered.memEpoch_le
  cases h with
  | top hrun =>
    unfold rank
    rw [hrun]
    unfold RunPoint.cost
    dsimp only
    omega
  | waitCpu tmp hrun hahead =>
    unfold rank
    rw [hrun]
    unfold RunPoint.cost
    dsimp only
    omega
  | popNone tmp hrun hempty =>
    unfold rank
    rw [hrun]
    unfold RunPoint.cost
    dsimp only
    omega
  | popOther tmp k hrun hmem hfirst hother =>
    unfold rank
    rw [hrun, ← lateCount_erase hmem, Nat.mul_add]
    unfold RunPoint.cost
    dsimp only
    omega
  | popFirst k hrun hmem hfirst =>
    rw [hrun] at hpoint
    have hlate : late s.cpuEpoch k = 1 := if_pos hpoint.2
    unfold rank
    rw [hrun, ← lateCount_erase hmem, Nat.mul_add, hlate]
    unfold RunPoint.cost weight
    dsimp only
    omega
  | putBack k hrun =>
    have hcons : lateCount s.cpuEpoch (k :: s.pq) = late s.cpuEpoch k + lateCount s.cpuEpoch s.pq := rfl
    unfold rank
    rw [hrun, hcons, Nat.mul_add]
    unfold RunPoint.cost
    dsimp only
    omega
  | setEpoch epoch hrun =>
    rw [hrun] at hpoint
    obtain ⟨hlt, hle', _⟩ := hpoint
    unfold rank
    rw [hrun]
    unfold RunPoint.cost
    dsimp only
    omega
  | lock tmp k hrun hfree =>
    unfold rank
    rw [hrun]
    unfold RunPoint.cost
    dsimp only
    omega
  | serve tmp k i delay refuses hrun hlt hroom =>
    obtain ⟨times, delays, accomplished, full, hhandle⟩ := handle_frame i delay refuses k s
    rw [hhandle]
    unfold rank
    rw [hrun]
    unfold RunPoint.cost
    dsimp only
    omega
  | served tmp k i hrun hserved htype =>
    unfold rank
    rw [hrun]
    unfold RunPoint.cost
    dsimp only
    omega
  | command tmp k i hrun hserved htype =>
    unfold rank
    rw [hrun]
    unfold RunPoint.cost
    dsimp only
    omega
  | popLast tmp hrun hempty =>
    unfold rank
    rw [hrun]
    unfold RunPoint.cost
    dsimp only
    omega
  | popLater tmp k hrun hmem hfirst hother =>
    unfold rank
    rw [hrun, ← lateCount_erase hmem, Nat.mul_add]
    unfold RunPoint.cost
    dsimp only
    omega
  | popNext k hrun hmem hfirst =>
    rw [hrun] at hpoint
    have hlate : late s.cpuEpoch k = 1 := if_pos hpoint.2
    unfold rank
    rw [hrun, ← lateCount_erase hmem, Nat.mul_add, hlate]
    unfold RunPoint.cost weight
    dsimp only
    omega
  | requeue tmp k hrun =>
    have hcons : lateCount s.cpuEpoch (k :: s.pq) = late s.cpuEpoch k + lateCount s.cpuEpoch s.pq := rfl
    unfold rank
    rw [hrun, hcons, Nat.mul_add]
    unfold RunPoint.cost
    dsimp only
    omega
  | leave tmp epoch hrun =>
    rw [hrun] at hpoint
    obtain ⟨hmem, _, hlt, hle', _⟩ := hpoint
    unfold rank
    rw [hrun]
    unfold RunPoint.cost
    dsimp only
    omega
  | unlock tmp exitLoop hrun =>
    cases exitLoop with
    | true =>
      unfold rank
      rw [hrun, if_pos rfl]
      exact Nat.add_lt_add_right (Nat.lt_succ_self _) _
    | false =>
      unfold rank
      rw [hrun, if_neg Bool.false_ne_true]
      exact Nat.add_lt_add_right (Nat.lt_succ_self _) _
  | advance hrun =>
    rw [hrun] at hpoint
    have hlt := hpoint.1
    unfold rank
    rw [hrun]
    unfold RunPoint.cost
    dsimp only
    omega

/-- A step that is no call lowers the rank. -/
theorem Step.rank_lt {a : Action} (h : Step simulators s a s') (ha : NoCall a) (hordered : Ordered simulators s) :
    rank simulators s' < rank simulators s := by
  cases h with
  | call c hidle => exact ha.elim
  | getDelay device refuses => exact ha.elim
  | fill _ hfill => exact hfill.rank_lt
  | run k delay refuses _ hrun => exact hrun.rank_lt hordered

/-- What steps that are no calls leave: nothing is pushed, the CPU thread stays in its epoch, and the completions to
come are those of the requests that wait. -/
structure Kept (simulators : ℕ) (s s' : CosimState) : Prop where
  pushed : s'.pushed = s.pushed
  cpuEpoch : s'.cpuEpoch = s.cpuEpoch
  completions : ∀ device, Cosim.completions simulators device s' = Cosim.completions simulators device s

theorem Kept.trans {u : CosimState} (h : Kept simulators s s') (h' : Kept simulators s' u) : Kept simulators s u :=
  ⟨h'.pushed.trans h.pushed, h'.cpuEpoch.trans h.cpuEpoch, fun device => (h'.completions device).trans (h.completions device)⟩

/-- Each step that is no call leaves them. -/
theorem Step.kept {a : Action} (h : Step simulators s a s') (ha : NoCall a) : Kept simulators s s' := by
  cases h with
  | call c hidle => exact ha.elim
  | getDelay device refuses => exact ha.elim
  | fill _ hfill => cases hfill <;> exact ⟨rfl, rfl, fun _ => rfl⟩
  | run k delay refuses _ hrun =>
    have hcompletions := hrun.completions_eq
    cases hrun with
    | serve tmp k i delay refuses hrun hlt hroom =>
      obtain ⟨times, delays, accomplished, full, hhandle⟩ := handle_frame i delay refuses k s
      rw [hhandle] at hcompletions ⊢
      exact ⟨rfl, rfl, hcompletions⟩
    | _ => exact ⟨rfl, rfl, hcompletions⟩

/-! ## Runs without calls -/

/-- What is known of every state that a run reaches. -/
structure Reached (simulators : ℕ) (s : CosimState) : Prop where
  ordered : Ordered simulators s
  locked : Locked s
  full : RefusesFull s

theorem Reached.step {a : Action} (h : Reached simulators s) (hstep : Step simulators s a s') : Reached simulators s' :=
  ⟨h.ordered.step hstep, h.locked.step hstep, h.full.step hstep⟩

/-- Every state of a run is reached. -/
theorem reached_of_run {focusOnROI : Bool} {acts : List Action}
    (hrun : acts.forM (step simulators) (init focusOnROI) = .ok ⟨⟩ s) : Reached simulators s :=
  of_forM_ok (fun _ _ _ _ h hstep => h.step (step_cases hstep)) ⟨ordered_init _ _, locked_init _, nofun⟩ hrun

/-- A run without calls is no longer than the rank. -/
theorem Reached.bounded {more : List Action} (h : Reached simulators s) (hmore : ∀ a ∈ more, NoCall a)
    (hrun : more.forM (Cosim.step simulators) s = .ok ⟨⟩ s') : more.length ≤ rank simulators s := by
  have hlower : ∀ u, ∀ a ∈ more, ∀ v, Reached simulators u → Cosim.step simulators a u = .ok ⟨⟩ v →
      Reached simulators v ∧ rank simulators v < rank simulators u := by
    intro u a ha v hu hstep
    have hcases := step_cases hstep
    exact ⟨hu.step hcases, hcases.rank_lt (hmore a ha) hu.ordered⟩
  have hlength : more.length + rank simulators s' ≤ rank simulators s := length_le_of_rank hlower h hrun
  exact (Nat.le_add_right _ _).trans hlength

/-- A run without calls pushes nothing, stays in the epoch of the CPU thread and makes completions only of the requests
that wait. -/
theorem kept_of_run {more : List Action} (hmore : ∀ a ∈ more, NoCall a)
    (hrun : more.forM (step simulators) s = .ok ⟨⟩ s') : Kept simulators s s' :=
  of_forM_ok (fun _ a ha _ hu hstep => hu.trans ((step_cases hstep).kept (hmore a ha))) ⟨rfl, rfl, fun _ => rfl⟩ hrun

/-- A state that is not stuck has a step that is no call. -/
theorem exists_step (h : ¬ Stuck simulators s) : ∃ a s', NoCall a ∧ Cosim.step simulators a s = .ok ⟨⟩ s' := by
  by_cases hfill : s.fillStep simulators = none
  · have hrun : ∃ k delay refuses, s.runStep simulators k delay refuses ≠ none := by
      by_contra hnone
      exact h ⟨hfill, fun k delay refuses => not_not.1 fun hstep => hnone ⟨k, delay, refuses, hstep⟩⟩
    obtain ⟨k, delay, refuses, hstep⟩ := hrun
    obtain ⟨s', hs'⟩ := Option.ne_none_iff_exists'.1 hstep
    exact ⟨.run k delay refuses, s', trivial, step_eq_ok.2 hs'⟩
  · obtain ⟨s', hs'⟩ := Option.ne_none_iff_exists'.1 hfill
    exact ⟨.fill, s', trivial, step_eq_ok.2 hs'⟩

/-- The threads get to where neither can take a step. -/
theorem Reached.gets_stuck {n : ℕ} (h : Reached simulators s) (hn : rank simulators s ≤ n) :
    ∃ (more : List Action) (t : CosimState),
      (∀ a ∈ more, NoCall a) ∧ more.forM (Cosim.step simulators) s = .ok ⟨⟩ t ∧ Stuck simulators t := by
  induction n generalizing s with
  | zero =>
    have hstuck : Stuck simulators s := by
      by_contra hstuck
      obtain ⟨a, s', ha, hstep⟩ := exists_step hstuck
      have hlt := (step_cases hstep).rank_lt ha h.ordered
      omega
    exact ⟨[], s, nofun, rfl, hstuck⟩
  | succ n ih =>
    by_cases hstuck : Stuck simulators s
    · exact ⟨[], s, nofun, rfl, hstuck⟩
    · obtain ⟨a, s', ha, hstep⟩ := exists_step hstuck
      have hlt := (step_cases hstep).rank_lt ha h.ordered
      obtain ⟨more, t, hmore, hrun, ht⟩ := ih (h.step (step_cases hstep)) (by omega)
      refine ⟨a :: more, t, List.forall_mem_cons.2 ⟨ha, hmore⟩, ?_, ht⟩
      exact (bind_of_ok hstep).trans hrun

/-- The threads neither deadlock nor run for ever. From every state of a run, while no call is made, they take at most
as many steps as the rank says, and get to where neither can take one. There `FillBiases` is over and every request of
an earlier epoch was handed to each simulator as often as it was pushed, unless the memory thread waits for room in the
queue of a device, which it never does if the queues have room for the completions of the requests that wait. -/
theorem threads_settle {focusOnROI : Bool} {acts : List Action}
    (hrun : acts.forM (step simulators) (init focusOnROI) = .ok ⟨⟩ s) :
    (∀ (more : List Action) (t : CosimState), (∀ a ∈ more, NoCall a) → more.forM (step simulators) s = .ok ⟨⟩ t →
      more.length ≤ rank simulators s ∧ t.pushed = s.pushed ∧ t.cpuEpoch = s.cpuEpoch ∧
        (Stuck simulators t → Settled simulators t ∨ WaitsForRoom simulators t) ∧
          (HasRoom simulators s → ¬ WaitsForRoom simulators t)) ∧
    ∃ (more : List Action) (t : CosimState),
      (∀ a ∈ more, NoCall a) ∧ more.forM (step simulators) s = .ok ⟨⟩ t ∧ Stuck simulators t := by
  have h := reached_of_run hrun
  refine ⟨fun more t hmore hmoreRun => ?_, h.gets_stuck le_rfl⟩
  have ht : Reached simulators t :=
    of_forM_ok (fun _ _ _ _ hu hstep => hu.step (step_cases hstep)) h hmoreRun
  have hkept := kept_of_run hmore hmoreRun
  refine ⟨h.bounded hmore hmoreRun, hkept.pushed, hkept.cpuEpoch, ht.ordered.settled ht.locked, fun hroom => ?_⟩
  apply HasRoom.not_waitsForRoom _ ht.full
  intro device
  rw [hkept.completions]
  exact hroom device

/-- A request of CPU 0 and one of device 2 in epoch 0, and the call of `FillBiases` after them, before the memory thread
takes a step. -/
theorem threads_settle_request :
    ∃ s, [Action.call (.notify 0 5 0 0 4), .call (.notifyIo 2 6 1 0 4 9), .call (.fillBiases 1 10)].forM (step 1)
        (init false) = .ok ⟨⟩ s ∧
      rank 1 s = 33 ∧ ∃ (more : List Action) (t : CosimState),
        (∀ a ∈ more, NoCall a) ∧ more.forM (step 1) s = .ok ⟨⟩ t ∧ Stuck 1 t :=
  ⟨_, eq_ok_endState (by decide +kernel), by decide +kernel, (threads_settle (eq_ok_endState (by decide +kernel))).2⟩

end Vpsim.Cosim
