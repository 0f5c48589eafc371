import Vpsim.Peripherals.GicPrivate

/-!
# Accesses that throw

An access can throw after it has changed something: there is no roll-back. What it leaves behind
depends on where it throws, and is given by the failure.
-/

namespace Vpsim.Peripherals

open Vpsim.Lib

/-- An exception of the controller, as opposed to undefined behaviour. -/
def Failure.Thrown (e : Failure) : Prop := e ≠ .indexOutOfRange ∧ e ≠ .emptyQueue

namespace Gic

variable {g g' : Gic}

/-- The states are the same but for the log. -/
def SameButLog (g g' : Gic) : Prop := { g' with log := g.log } = g

/-- The log does not count on either side. -/
theorem SameButLog.of_log (h : SameButLog g g') (log : List Event) : SameButLog { g with log := log } g' := by
  have hlog := congrArg (fun s : Gic => { s with log := log }) h
  exact hlog

/-- What a guest write that throws leaves behind. A completion of another interrupt than the front clears the
pending bit of the interrupt that it names; the end of a virtual interrupt with another physical one behind it
empties its list register first; an entry with the reserved number is listed; a control word is stored. -/
def afterFailure (g : Gic) (w : GuestWrite) : Failure → Gic
  | .wrongInterrupt interrupt _ => g.putPending w.id interrupt 0#32
  | .wrongPhysicalInterrupt _ _ =>
    match g.vCpuQueue w.id with
    | k :: _ => (g.retireEntry w.id k).putPending w.id (interruptId w.value) 0#32
    | [] => g
  | .reservedVirtualId =>
    if h : 0x100 ≤ w.offset ∧ w.offset < 0x200 then
      g.listEntry ⟨(w.offset - 0x100) / 4, listIndex_lt h⟩ w.value w.id
    else g
  | .virtualControl _ value => g.putWord (g.vDistBank w.id) value
  | _ => g

/-- What a read or write that throws leaves behind. -/
def afterRefusal (g : Gic) (op : GicOp) (e : Failure) : Gic :=
  match g.config.guestWrite op with
  | some w => g.afterFailure w e
  | none => g

/-- A read or write that throws. -/
structure Refused (g : Gic) (op : GicOp) (e : Failure) (g' : Gic) : Prop where
  state : SameButLog (g.afterRefusal op e) g'
  enableStatus : g'.enableStatus = g.enableStatus
  cpuQueue : g'.cpuQueue = g.cpuQueue

/-- The distributor does not throw. -/
theorem writeDist_refused (offset : ℕ) (value : Word) (size cpuId : ℕ) :
    wp (writeDist offset value size cpuId) (fun _ _ => True) (fun e _ => e = .indexOutOfRange) g := by
  unfold writeDist
  split
  · trivial
  · split
    · trivial
    · split
      · apply wp.step
        apply wp.step
        apply wp_forM _ (fun _ _ => True) _ trivial
        intro cpuT _ s _
        split
        · apply wp.step
          rw [wp_modify, wp_setInterruptPending]
          split
          · trivial
          · rfl
        · trivial
      · trivial

/-- A completion that throws leaves the state as `afterFailure` says, up to the log. -/
theorem writeCpu_refused (w : GuestWrite) :
    wp (writeCpu w.offset w.value w.len w.id) (fun _ _ => True)
      (fun e g' => e.Thrown → SameButLog (g.afterFailure w e) g') g := by
  apply wp.step
  rw [wp_get]
  split
  · split
    · apply wp.step
      rw [wp_get]
      split
      · exact fun _ => rfl
      · rename_i front rest hqueue
        apply wp.step
        rw [wp_setInterruptPending]
        split
        · split
          · apply wp.step
            unfold showNext
            split
            · apply wp.step
              rw [wp_setInterruptPending]
              split
              · trivial
              · exact fun h => absurd rfl h.1
            · trivial
          · exact fun _ => rfl
        · exact fun h => absurd rfl h.1
    · trivial
  · trivial

/-- The physical side of the end of a virtual interrupt throws only for a wrong front of the queue, and
has then cleared the pending bit. -/
theorem endEntry_refused {interrupt : ℕ} {vint : Word} {k : Fin 64} {id : ℕ} :
    wp (endEntry interrupt vint k id) (fun _ _ => True)
      (fun e g' => e.Thrown → e = .wrongPhysicalInterrupt (physicalId vint) (interruptId ((g.cpuQueue id).headD 0#32)) ∧
        SameButLog (g.putPending id interrupt 0#32) g') g := by
  unfold endEntry
  split
  · apply wp.step
    rw [wp_setInterruptPending]
    split
    · apply wp.step
      rw [wp_get]
      split
      · exact fun h => absurd rfl h.2
      · rename_i front rest hqueue
        split
        · trivial
        · have hfront : g.cpuQueue id = front :: rest := hqueue
          intro _
          rw [hfront]
          exact ⟨rfl, rfl⟩
    · exact fun h => absurd rfl h.1
  · split
    · trivial
    · trivial

/-- The end of a virtual interrupt that throws leaves the state as `afterFailure` says, up to the log. -/
theorem writeVCpu_refused (w : GuestWrite) :
    wp (writeVCpu w.offset w.value w.len w.id) (fun _ _ => True)
      (fun e g' => e.Thrown → SameButLog (g.afterFailure w e) g') g := by
  apply wp.step
  rw [wp_get]
  split
  · split
    · apply wp.step
      rw [wp_get]
      split
      · exact fun _ => rfl
      · rename_i k rest hqueue
        apply wp.step
        rw [wp_modify]
        split
        · apply wp.step
          rw [wp_modify]
          apply wp.step
          apply endEntry_refused.imp
          · exact fun _ _ _ => trivial
          · intro e g' hend he
            obtain ⟨rfl, hsame⟩ := hend he
            unfold afterFailure
            rw [hqueue]
            exact hsame.of_log (g.retireEntry w.id k).log
        · exact fun _ => rfl
    · trivial
  · trivial

/-- The alias of the control register is written without an exception. -/
theorem forwardControl_returns (offset : ℕ) (value : Word) (id : ℕ) :
    wp (forwardControl offset value id) (fun _ s => offset ≠ 8 → s = g) (fun _ _ => False) g := by
  unfold forwardControl
  split
  · rename_i hoff
    have hcopy : ∀ offset value (s : Gic), isCompletion offset = false →
        wp (writeVCpu offset value 4 id) (fun _ _ => True) (fun _ _ => False) s := by
      intro offset value s h
      apply wp.step
      rw [wp_get]
      apply wp.ite_neg
      · rw [h]
        exact Bool.false_ne_true
      · trivial
    apply wp.step
    rw [wp_get]
    apply (hcopy 0 _ g rfl).bind
    intro _ s _
    apply wp.step
    rw [wp_get]
    apply (hcopy 4 _ s rfl).mono
    exact fun _ _ _ h => absurd hoff h
  · exact fun _ => rfl

/-- Writes to the list registers and to the virtual control register. -/
theorem writeVDist_refused (w : GuestWrite) :
    wp (writeVDist w.offset w.value w.id) (fun _ _ => True)
      (fun e g' => e.Thrown → SameButLog (g.afterFailure w e) g') g := by
  have hlist : wp (writeList w.offset w.value w.id) (fun _ g' => w.offset = 0 → g' = g)
      (fun e g' => e.Thrown → SameButLog (g.afterFailure w e) g') g := by
    unfold writeList
    split
    · rename_i hoff
      apply wp.step
      rw [wp_modify]
      split
      · intro _
        unfold afterFailure
        dsimp only
        rw [dif_pos hoff]
        rfl
      · intro hzero
        omega
    · exact fun _ => rfl
  apply hlist.bind
  intro _ g₁ h₁
  apply wp.step
  rw [wp_modify]
  apply wp.step
  apply (forwardControl_returns w.offset w.value w.id).imp
  · intro _ g₂ h₂
    split
    · rename_i hcontrol
      intro _
      rw [h₂ (by omega), h₁ hcontrol.1, hcontrol.1]
      rfl
    · trivial
  · exact fun _ _ h => h.elim

/-- A guest write that throws leaves the state as `afterFailure` says, up to the log. -/
theorem writeRegion_refused (w : GuestWrite) :
    wp (writeRegion w.region w.offset w.value w.len w.id) (fun _ _ => True)
      (fun e g' => e.Thrown → SameButLog (g.afterFailure w e) g') g := by
  cases hregion : w.region with
  | dist =>
    apply (writeDist_refused w.offset w.value w.len w.id).imp
    · exact fun _ _ _ => trivial
    · exact fun e _ he h => absurd he h.1
  | cpu => exact writeCpu_refused w
  | vCpu => exact writeVCpu_refused w
  | vDist => exact writeVDist_refused w

/-- A failure touches neither the maps nor the queues of the CPUs. -/
theorem afterFailure_queues (g : Gic) (w : GuestWrite) (e : Failure) :
    (g.afterFailure w e).enableStatus = g.enableStatus ∧ (g.afterFailure w e).cpuQueue = g.cpuQueue := by
  unfold afterFailure
  split
  · exact ⟨rfl, rfl⟩
  · split
    · exact ⟨rfl, rfl⟩
    · exact ⟨rfl, rfl⟩
  · split
    · unfold listEntry
      dsimp only
      split
      · exact ⟨rfl, rfl⟩
      · split
        · exact ⟨rfl, rfl⟩
        · exact ⟨rfl, rfl⟩
    · exact ⟨rfl, rfl⟩
  · exact ⟨rfl, rfl⟩
  · exact ⟨rfl, rfl⟩

/-- From any state, a read or write that throws is refused. -/
theorem refused_of_throw {op : GicOp} {e : Failure} (hop : ∀ val irqIdx, op ≠ .updateIrq val irqIdx)
    (he : e.Thrown) (hthrow : step op g = .error e g') : Refused g op e g' := by
  have hstate : SameButLog (g.afterRefusal op e) g' := by
    have hwp : wp (step op) (fun _ _ => True) (fun e g' => e.Thrown → SameButLog (g.afterRefusal op e) g') g := by
      cases op with
      | read cpu addr len =>
        apply wp.step
        cases cpu with
        | none => exact fun _ => rfl
        | some id =>
          apply wp.step
          rw [wp_get]
          split
          · exact fun _ => rfl
          · trivial
      | write cpu addr value len =>
        cases cpu with
        | none =>
          apply wp.step
          exact fun _ => rfl
        | some id =>
          unfold step write
          apply wp.step
          rw [wp_get]
          unfold afterRefusal GicConfig.guestWrite
          dsimp only
          cases g.config.locate addr with
          | none => exact fun _ => rfl
          | some place =>
            apply wp.step
            apply (writeRegion_refused ⟨place.1, place.2, value, len, id⟩).imp
            · exact fun _ _ _ => trivial
            · exact fun _ _ h => h
      | updateIrq val irqIdx => exact absurd rfl (hop val irqIdx)
    exact hwp.of_error hthrow he
  have hqueues : (g.afterRefusal op e).enableStatus = g.enableStatus ∧
      (g.afterRefusal op e).cpuQueue = g.cpuQueue := by
    unfold afterRefusal
    split
    · exact afterFailure_queues g _ e
    · exact ⟨rfl, rfl⟩
  exact ⟨hstate, (congrArg Gic.enableStatus hstate).trans hqueues.1, (congrArg Gic.cpuQueue hstate).trans hqueues.2⟩

/-- Interrupt 33 is queued for CPU 0, and interrupt 34 is pending. -/
def waiting : Gic := endState (runAll (enable33 ++ [.updateIrq 1#64 33#32, .updateIrq 1#64 34#32]) (small [0]))

/-- The completion of interrupt 34 then. -/
def completeOther : GicOp := .write (some 0) 0x1010#64 34#32 4

/-- It is refused. -/
theorem completeOther_refused :
    ∃ g', step completeOther waiting = .error (.wrongInterrupt 34 33) g' ∧
      Refused waiting completeOther (.wrongInterrupt 34 33) g' := by
  have hstops : stopsWith (fun e _ => e == .wrongInterrupt 34 33) (step completeOther waiting) = true := by
    decide +kernel
  obtain ⟨e, g', hstep, he⟩ := exists_error_of_stopsWith hstops
  rw [beq_iff_eq.1 he] at hstep
  exact ⟨g', hstep, refused_of_throw (fun _ _ h => by cases h) ⟨nofun, nofun⟩ hstep⟩

/-- The pending bit of interrupt 34 is gone all the same. -/
theorem completeOther_clears :
    ∃ g', step completeOther waiting = .error (.wrongInterrupt 34 33) g' ∧
      waiting.Pending 0 34 ∧ ¬ g'.Pending 0 34 := by
  have hstops : stopsWith (fun e g' => e == .wrongInterrupt 34 33 && !(g'.pendingInterrupts 0 1).getLsbD 2)
      (step completeOther waiting) = true := by
    decide +kernel
  obtain ⟨e, g', hstep, he⟩ := exists_error_of_stopsWith hstops
  rw [Bool.and_eq_true_iff, Bool.not_eq_true', beq_iff_eq] at he
  rw [he.1] at hstep
  refine ⟨g', hstep, ?_, ?_⟩
  · unfold Pending
    decide +kernel
  · exact fun h => absurd (he.2.symm.trans h) (by decide)

end Gic

end Vpsim.Peripherals
