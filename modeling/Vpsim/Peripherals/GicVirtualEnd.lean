import Vpsim.Peripherals.GicPrivate

/-!
# The end of a virtual interrupt with a physical one behind it

The end of a virtual interrupt whose list register is marked `HW` should complete the physical
interrupt that the register names. The handler takes the front of the queue away, but the pending
bit that it clears is the one with the number of the virtual interrupt. When the two numbers differ the
physical interrupt stays pending, and the next round queues it again.
-/

namespace Vpsim.Peripherals

open Vpsim.Lib

namespace Gic

variable {g g' g'' : Gic} {config : GicConfig} {ids : List ℕ} {id p : ℕ}

/-! ## Rounds -/

/-- What a round queues was pending. -/
structure Requeues (g g' : Gic) : Prop where
  pendingInterrupts : g'.pendingInterrupts = g.pendingInterrupts
  enableStatus : g'.enableStatus = g.enableStatus
  interruptOrigins : g'.interruptOrigins = g.interruptOrigins
  cpuQueue : ∀ c, ∃ new, g'.cpuQueue c = g.cpuQueue c ++ new ∧ ∀ v ∈ new, ∃ n,
    findEntry n (g.enableStatus c) = some true ∧ g.Pending c n ∧ v = g.ackValue c n

/-- A step that leaves the queues and the pending bits alone requeues nothing. -/
theorem Requeues.of_eq (hp : g'.pendingInterrupts = g.pendingInterrupts) (he : g'.enableStatus = g.enableStatus)
    (ho : g'.interruptOrigins = g.interruptOrigins) (hq : g'.cpuQueue = g.cpuQueue) : Requeues g g' := by
  refine ⟨hp, he, ho, fun c => ⟨[], ?_, nofun⟩⟩
  rw [hq, List.append_nil]

theorem Requeues.trans (h : Requeues g g') (h' : Requeues g' g'') : Requeues g g'' := by
  refine ⟨h'.pendingInterrupts.trans h.pendingInterrupts, h'.enableStatus.trans h.enableStatus,
    h'.interruptOrigins.trans h.interruptOrigins, fun c => ?_⟩
  obtain ⟨new, hq, hnew⟩ := h.cpuQueue c
  obtain ⟨new', hq', hnew'⟩ := h'.cpuQueue c
  refine ⟨new ++ new', by rw [hq', hq, List.append_assoc], fun v hv => ?_⟩
  rcases List.mem_append.1 hv with hv | hv
  · exact hnew v hv
  · have hsame := hnew' v hv
    unfold Pending ackValue at hsame ⊢
    rw [h.enableStatus, h.pendingInterrupts, h.interruptOrigins] at hsame
    exact hsame

instance : IsPreorder Gic Requeues where
  refl _ := Requeues.of_eq rfl rfl rfl rfl
  trans _ _ _ := Requeues.trans

/-- An entry of a map is queued if it is pending. -/
theorem requeues_serveEntry (cpu : ℕ) (g : Gic) (entry : ℕ × Bool) : Requeues g (serveEntry cpu g entry) := by
  have hrecord : Requeues g (g.record (.index cpu (entry.1 / 32))) := Requeues.of_eq rfl rfl rfl rfl
  unfold serveEntry
  dsimp only
  split
  · exact hrecord
  · split
    · rename_i hpending
      split
      · rename_i henabled
        split
        · exact hrecord
        · refine ⟨rfl, rfl, rfl, fun c => ?_⟩
          by_cases hc : c = cpu
          · refine ⟨[g.ackValue cpu entry.1], ?_, fun v hv => ⟨entry.1, ?_⟩⟩
            · rw [hc]
              exact (pushCpu_cpuQueue _ cpu _ cpu).trans (if_pos rfl)
            · rw [hc]
              exact ⟨henabled, (Bool.and_eq_true_iff.1 hpending).1, List.mem_singleton.1 hv⟩
          · refine ⟨[], ?_, nofun⟩
            rw [List.append_nil]
            exact (pushCpu_cpuQueue _ cpu _ c).trans (if_neg hc)
      · exact hrecord
    · exact hrecord

/-- A round for one CPU queues only what is pending and enabled. -/
theorem requeues_serveCpu (g : Gic) (cpu : ℕ) : Requeues g (g.serveCpu cpu) := by
  unfold serveCpu
  split
  · exact Requeues.of_eq rfl rfl rfl rfl
  · have hscan : ∀ (entries : List (ℕ × Bool)) (g : Gic), Requeues g (entries.foldl (serveEntry cpu) g) := by
      intro entries g
      induction entries generalizing g with
      | nil => exact refl_of Requeues g
      | cons entry entries ih => exact (requeues_serveEntry cpu g entry).trans (ih _)
    have hphysical : ∀ g : Gic, Requeues g (g.presentPhysical cpu) := by
      intro g
      unfold presentPhysical
      split
      · exact Requeues.of_eq rfl rfl rfl rfl
      · exact Requeues.of_eq rfl rfl rfl rfl
    have hvirtual : ∀ g : Gic, Requeues g (g.presentVirtual cpu) := by
      intro g
      unfold presentVirtual
      split
      · exact Requeues.of_eq rfl rfl rfl rfl
      · exact Requeues.of_eq rfl rfl rfl rfl
    exact ((hscan _ g).trans (hphysical _)).trans (hvirtual _)

/-- A round queues only what is pending and enabled. -/
theorem requeues_combLogic (g : Gic) : Requeues g g.combLogic := by
  unfold combLogic
  generalize g.cpus.rotate (g.roundRobin + 1) = cpus
  induction cpus generalizing g with
  | nil => exact refl_of Requeues g
  | cons cpu cpus ih => exact (requeues_serveCpu g cpu).trans (ih _)

/-! ## Interrupts that are done -/

/-- Interrupt `p` is neither pending nor queued for CPU `id`. -/
structure Done (config : GicConfig) (ids : List ℕ) (id p : ℕ) (g : Gic) : Prop extends EnabledBelow config ids g where
  pending : ¬ g.Pending id p
  queue : ∀ v ∈ g.cpuQueue id, interruptId v ≠ p

/-- What is done stays done over a step that leaves the pending bits and the queues alone. -/
theorem Done.of_eq (h : Done config ids id p g) (he : EnabledBelow config ids g')
    (hp : g'.pendingInterrupts = g.pendingInterrupts) (hq : g'.cpuQueue = g.cpuQueue) : Done config ids id p g' := by
  refine ⟨he, ?_, ?_⟩
  · unfold Pending
    rw [hp]
    exact h.pending
  · rw [hq]
    exact h.queue

/-- A step outside the maps, the pending bits and the queues. -/
theorem Done.of_mem (h : Done config ids id p g) (hc : g'.config = g.config) (hcpus : g'.cpus = g.cpus)
    (he : g'.enableStatus = g.enableStatus) (hp : g'.pendingInterrupts = g.pendingInterrupts)
    (hq : g'.cpuQueue = g.cpuQueue) : Done config ids id p g' := by
  refine h.of_eq ⟨hc.trans h.config, hcpus.trans h.cpus, ?_⟩ hp hq
  rw [he]
  exact h.below

/-- A round queues nothing that is done. -/
theorem Done.combLogic (h : Done config ids id p g) : Done config ids id p g.combLogic := by
  have hround := requeues_combLogic g
  refine ⟨h.toEnabledBelow.of_steady (serves_combLogic g).steady, ?_, fun v hv => ?_⟩
  · unfold Pending
    rw [hround.pendingInterrupts]
    exact h.pending
  · obtain ⟨new, hq, hnew⟩ := hround.cpuQueue id
    rw [hq] at hv
    rcases List.mem_append.1 hv with hold | hv
    · exact h.queue v hold
    · obtain ⟨n, henabled, hpending, rfl⟩ := hnew v hv
      rw [interruptId_ackValue (h.below id n henabled)]
      intro heq
      exact h.pending (heq ▸ hpending)

/-- The maintenance interrupt is queued without a pending bit. -/
theorem Done.genMaint (h : Done config ids id p g) {cpu : ℕ} (hother : cpu = id → interruptId config.maintIrq ≠ p) :
    Done config ids id p (g.genMaint cpu) := by
  unfold Gic.genMaint
  split
  · exact h.combLogic
  · apply Done.combLogic
    refine ⟨⟨h.config, h.cpus, h.below⟩, h.pending, fun v hv => ?_⟩
    rw [pushCpu_cpuQueue] at hv
    by_cases hcpu : id = cpu
    · rw [if_pos hcpu, ← hcpu] at hv
      rcases List.mem_append.1 hv with hold | hnew
      · exact h.queue v hold
      · rw [List.mem_singleton.1 hnew, h.config]
        exact hother hcpu.symm
    · rw [if_neg hcpu] at hv
      exact h.queue v hv

/-- Completions take interrupts from the queue. -/
theorem Done.popCpu (h : Done config ids id p g) (cpu : ℕ) : Done config ids id p (g.popCpu cpu) := by
  refine ⟨⟨h.config, h.cpus, h.below⟩, h.pending, fun v hv => ?_⟩
  rw [popCpu_cpuQueue] at hv
  by_cases hcpu : id = cpu
  · rw [if_pos hcpu, ← hcpu] at hv
    exact h.queue v (List.mem_of_mem_tail hv)
  · rw [if_neg hcpu] at hv
    exact h.queue v hv

/-- What is done stays done when another pending bit is set or cleared, or this one is cleared. -/
theorem Done.putPending (h : Done config ids id p g) {cpu interrupt : ℕ} {value : Word}
    (hother : cpu = id → interrupt = p → value = 0#32) : Done config ids id p (g.putPending cpu interrupt value) := by
  refine ⟨⟨h.config, h.cpus, h.below⟩, fun hpending => ?_, h.queue⟩
  rcases (pending_putPending g cpu interrupt value).1 hpending with ⟨hcpu, hp, hvalue⟩ | ⟨_, hold⟩
  · exact hvalue (hother hcpu.symm hp.symm)
  · exact h.pending hold

/-- What is done stays done over `setInterruptPending` for another interrupt. -/
theorem Done.setInterruptPending (h : Done config ids id p g) {cpu interrupt : ℕ} {value : Word}
    (hother : cpu = id → interrupt = p → value = 0#32) :
    wp (Gic.setInterruptPending cpu interrupt value) (fun _ => Done config ids id p) (fun _ _ => True) g := by
  rw [wp_setInterruptPending]
  split
  · have hrecord : Done config ids id p (g.record (.index cpu (interrupt / 32))) := h.of_mem rfl rfl rfl rfl rfl
    exact hrecord.putPending hother
  · trivial

/-- A completion shows the next interrupt of the queue, and makes it pending. -/
theorem Done.completeInterrupt (h : Done config ids id p g) (value : Word) (cpu : ℕ) :
    wp (Gic.completeInterrupt value cpu) (fun _ => Done config ids id p) (fun _ _ => True) g := by
  apply wp.step
  rw [wp_get]
  split
  · trivial
  · rename_i front rest hqueue
    apply (h.setInterruptPending fun _ _ => rfl).bind
    intro _ g₁ h₁
    split
    · apply wp.step
      rw [wp_modify]
      have h₂ := h₁.popCpu cpu
      unfold showNext
      split
      · rename_i next tail
        have hnext : cpu = id → interruptId next ≠ p := by
          intro hcpu
          apply h.queue
          rw [← hcpu, hqueue]
          exact List.mem_cons_of_mem _ List.mem_cons_self
        apply (h₂.setInterruptPending fun hcpu hp => absurd hp (hnext hcpu)).bind
        intro _ g₃ h₃
        exact h₃.of_mem rfl rfl rfl rfl rfl
      · exact h₂.of_mem rfl rfl rfl rfl rfl
    · trivial

/-- What a CPU may do while interrupt `p` of CPU `id` is not raised again: no input line and no software
interrupt has this number, and if it is the maintenance interrupt, the CPU asks for none. -/
structure Unraised (id p : ℕ) (g : Gic) (op : GicOp) : Prop where
  line : ∀ val irqIdx, op = .updateIrq val irqIdx → actualIrq irqIdx ≠ p
  software : ∀ w, g.config.guestWrite op = some w → w.region = .dist → w.offset = 0xF00 → sgiNumber w.value ≠ p
  maintenance : ∀ w, g.config.guestWrite op = some w → interruptId g.config.maintIrq = p → w.id = id →
    w.region ≠ .vCpu ∧ w.region ≠ .vDist

/-- What is done stays done over a guest write. -/
theorem Done.writeRegion (h : Done config ids id p g) {op : GicOp} (hop : Unraised id p g op) {w : GuestWrite}
    (hw : g.config.guestWrite op = some w) :
    wp (Gic.writeRegion w.region w.offset w.value w.len w.id) (fun _ => Done config ids id p) (fun _ _ => True) g := by
  have hstays : ∀ {x : GicM Unit}, wp x (fun _ => Stays (Done config ids id p) g)
      (fun _ => Stays (Done config ids id p) g) g → wp x (fun _ => Done config ids id p) (fun _ _ => True) g :=
    fun hx => hx.imp (fun _ _ hd => hd h) fun _ _ _ => trivial
  cases hregion : w.region with
  | dist =>
    apply hstays
    refine keeps_writeDist ?_ ?_ ?_ ?_ g
    · intro hlow hhigh g h
      have hbelow := h.toEnabledBelow.enable hlow hhigh w.value w.id
      obtain ⟨mem, map, heq, -, -⟩ := enableBits_spec g hlow hhigh w.value w.id
      rw [heq] at hbelow ⊢
      exact h.of_eq hbelow rfl rfl
    · intro hlow hhigh g h
      have hbelow := h.toEnabledBelow.disable hlow hhigh w.value w.id
      obtain ⟨mem, map, heq, -, -⟩ := disableBits_spec g hlow hhigh w.value w.id
      rw [heq] at hbelow ⊢
      exact h.of_eq hbelow rfl rfl
    · intro hoff
      apply keeps_generateSgi
      · intro g h
        exact h.of_mem rfl rfl rfl rfl rfl
      · intro g cpuT _ h
        apply Done.putPending
        · exact h.of_mem rfl rfl rfl rfl rfl
        · exact fun _ hp => absurd hp (hop.software w hw hregion hoff)
    · intro _ _ _ g h
      exact h.of_mem rfl rfl rfl rfl rfl
  | cpu =>
    apply wp.step
    rw [wp_get]
    split
    · split
      · exact h.completeInterrupt w.value w.id
      · exact h
    · exact h.of_mem rfl rfl rfl rfl rfl
  | vCpu =>
    have hmaint : ∀ g', Done config ids id p g' → Done config ids id p (g'.genMaint w.id) := fun g' h' =>
      h'.genMaint fun hid hp => (hop.maintenance w hw (by rw [h.config]; exact hp) hid).1 hregion
    apply hstays
    apply wp_writeVCpu
    · intro _ _
      apply wp_completeVirtual
      · exact fun _ _ _ h => h.of_mem rfl rfl rfl rfl rfl
      · exact fun _ _ _ _ h => h.of_mem rfl rfl rfl rfl rfl
      · intro k _ _ _
        apply keeps_endEntry
        · exact fun _ _ h => h.of_mem rfl rfl rfl rfl rfl
        · exact fun _ _ h => h.popCpu w.id
        · exact fun _ _ h => h.putPending fun _ _ => rfl
        · exact fun g h => hmaint _ (h.of_mem rfl rfl rfl rfl rfl)
      · intro g h
        unfold nextVirtual
        split
        · exact h.of_mem rfl rfl rfl rfl rfl
        · dsimp only
          split
          · exact hmaint _ (h.of_mem rfl rfl rfl rfl rfl)
          · exact h.of_mem rfl rfl rfl rfl rfl
    · exact fun _ h => h.of_mem rfl rfl rfl rfl rfl
  | vDist =>
    have hmaint : ∀ g', Done config ids id p g' → Done config ids id p (g'.genMaint w.id) := fun g' h' =>
      h'.genMaint fun hid hp => (hop.maintenance w hw (by rw [h.config]; exact hp) hid).2 hregion
    apply hstays
    apply wp_writeVDist
    · intro _ h
      unfold listEntry
      dsimp only
      split
      · exact h.of_mem rfl rfl rfl rfl rfl
      · split
        · exact h.of_mem rfl rfl rfl rfl rfl
        · exact h.of_mem rfl rfl rfl rfl rfl
    · intro _ g h
      unfold notifyEmpty
      split
      · exact hmaint _ (h.of_mem rfl rfl rfl rfl rfl)
      · exact h
    · exact fun _ h => h.of_mem rfl rfl rfl rfl rfl
    · exact fun _ _ _ _ _ h => h.of_mem rfl rfl rfl rfl rfl

/-- What is done stays done while it is not raised. -/
theorem Done.step (h : Done config ids id p g) {op : GicOp} (hop : Unraised id p g op) :
    wp (Gic.step op) (fun _ => Done config ids id p) (fun _ _ => True) g := by
  apply wp_step op (fun _ => trivial) fun _ _ => h
  · intro w hw
    exact (h.writeRegion hop hw).mono fun _ g' h' => h'.combLogic
  · intro val irqIdx hline
    have hraise : wp (raiseLine val irqIdx) (fun _ => Stays (Done config ids id p) g)
        (fun _ => Stays (Done config ids id p) g) g := by
      apply wp_raiseLine
      · exact fun _ _ _ h => h.of_mem rfl rfl rfl rfl rfl
      · exact fun _ _ _ h => h.putPending fun _ hp => absurd hp (hop.line val irqIdx hline)
      · exact fun _ _ _ _ _ h => h.of_mem rfl rfl rfl rfl rfl
    exact hraise.imp (fun _ g' h' => (h' h).combLogic) fun _ _ _ => trivial

/-- What is done stays done over a run in which it is not raised. -/
theorem Done.runAll {ops : List GicOp} (h : Done config ids id p g) (hops : Along Gic.step (Unraised id p) g ops)
    (hrun : Gic.runAll ops g = .ok () g') : Done config ids id p g' := by
  have hwp : wp (Gic.runAll ops) (fun _ => Done config ids id p) (fun _ _ => True) g :=
    hops.wp_forM (fun _ _ _ h hop => h.step hop) h
  exact hwp.of_ok hrun

/-! ## The end of a virtual interrupt -/

/-- The queues get new entries at their ends only. -/
def QueuesGrow (g g' : Gic) : Prop := ∀ c, g.cpuQueue c <+: g'.cpuQueue c

instance : IsPreorder Gic QueuesGrow where
  refl _ _ := List.prefix_rfl
  trans _ _ _ h h' c := (h c).trans (h' c)

theorem queuesGrow_combLogic (g : Gic) : QueuesGrow g g.combLogic := by
  intro c
  obtain ⟨new, hq, _⟩ := (requeues_combLogic g).cpuQueue c
  exact ⟨new, hq.symm⟩

/-- What the end of a virtual interrupt does to the physical one behind it, and to its list register. -/
def endPhysical (g : Gic) (id : ℕ) (k : Fin 64) : Gic :=
  let v := virtualId (g.getVIntEntry k)
  ((((g.record (.lookup id k (g.getVIntEntry k))).retireEntry id k).record (.index id (v / 32))).putPending
    id v 0#32).popCpu id

/-- The state after the virtual interface has gone on to the next entry. -/
def afterEnd (g : Gic) (id : ℕ) (k : Fin 64) : Gic := (((g.endPhysical id k).popVCpu id).nextVirtual id).combLogic

/-- The end of the last virtual interrupt asks for the maintenance interrupt. -/
def MaintenanceDue (g : Gic) (id : ℕ) (k : Fin 64) : Prop :=
  (g.vCpuQueue id).tail = [] ∧
    ((g.retireEntry id k).setCurrentVirtualInterruptId id 1023#32).endsVirtual id = true

/-- The end of a virtual interrupt ends its physical one at the front of the queue and shows the next
entry. -/
theorem completeVirtual_spec {k : Fin 64} {rest : List (Fin 64)} (hfront : g.vCpuQueue id = k :: rest)
    (hhw : entryHw (g.getVIntEntry k) = true) (value : Word) :
    wp (completeVirtual value id) (fun _ g' =>
      (∃ front tail, g.cpuQueue id = front :: tail ∧ interruptId front = physicalId (g.getVIntEntry k)) ∧
        g' = ((g.endPhysical id k).popVCpu id).nextVirtual id) (fun _ _ => True) g := by
  apply wp.step
  rw [wp_get, hfront]
  dsimp only
  apply wp.step
  rw [wp_modify]
  split
  · rename_i hvirtual
    apply wp.step
    rw [wp_modify, hvirtual]
    apply wp.step
    unfold endEntry
    rw [if_pos hhw]
    unfold completePhysical
    apply wp.step
    rw [wp_setInterruptPending]
    split
    · apply wp.step
      rw [wp_get]
      split
      · trivial
      · rename_i front tail hqueue
        split
        · rename_i hphysical
          exact ⟨⟨front, tail, hqueue, hphysical.symm⟩, rfl⟩
        · trivial
    · trivial
  · trivial

/-- Dealing with the physical interrupt clears the pending bit of the virtual number. -/
theorem pending_endPhysical (g : Gic) (id : ℕ) (k : Fin 64) (c n : ℕ) : (g.endPhysical id k).Pending c n ↔
    ¬ (c = id ∧ n = virtualId (g.getVIntEntry k)) ∧ g.Pending c n := by
  apply (pending_putPending (c := c) (n := n) _ id (virtualId (g.getVIntEntry k)) 0#32).trans
  constructor
  · intro h
    rcases h with ⟨_, _, hvalue⟩ | h
    · exact absurd rfl hvalue
    · exact h
  · exact .inr

/-- The end of a virtual interrupt clears the pending bit of the virtual number. -/
theorem pending_afterEnd (g : Gic) (id : ℕ) (k : Fin 64) (c n : ℕ) : (g.afterEnd id k).Pending c n ↔
    ¬ (c = id ∧ n = virtualId (g.getVIntEntry k)) ∧ g.Pending c n := by
  have hsame : (g.afterEnd id k).pendingInterrupts = (g.endPhysical id k).pendingInterrupts :=
    (requeues_combLogic _).pendingInterrupts.trans (nextVirtual_pendingInterrupts _ id)
  rw [← pending_endPhysical]
  unfold Pending
  rw [hsame]

/-- The queue after the end of a virtual interrupt: the front is gone. -/
theorem queue_afterEnd (g : Gic) (id : ℕ) (k : Fin 64) :
    (g.cpuQueue id).tail <+: (g.afterEnd id k).cpuQueue id := by
  have hpop : (g.endPhysical id k).cpuQueue id = (g.cpuQueue id).tail :=
    (popCpu_cpuQueue _ id id).trans (if_pos rfl)
  have hnext : QueuesGrow (g.endPhysical id k) (((g.endPhysical id k).popVCpu id).nextVirtual id) := by
    apply queue_nextVirtual
    · intro g g' heq c
      rw [heq]
    · intro g g' hserve c
      obtain ⟨new, hq, _⟩ := hserve.cpuQueue c
      exact ⟨new, hq.symm⟩
    · intro g cpu v _ c
      rw [pushCpu_cpuQueue]
      split
      · rename_i hc
        rw [hc]
        exact List.prefix_append _ _
      · exact List.prefix_rfl
  rw [← hpop]
  exact (hnext id).trans (queuesGrow_combLogic _ id)

/-- The maintenance interrupt is queued when it is asked for. -/
theorem maintIrq_mem_genMaint (g : Gic) (cpu : ℕ) : g.config.maintIrq ∈ (g.genMaint cpu).cpuQueue cpu := by
  unfold genMaint
  split
  · rename_i hmem
    exact (queuesGrow_combLogic g cpu).subset hmem
  · apply (queuesGrow_combLogic _ cpu).subset
    rw [pushCpu_cpuQueue, if_pos rfl]
    exact List.mem_append_right _ (List.mem_singleton.2 rfl)

/-- A maintenance interrupt that is due is queued. -/
theorem maintIrq_mem_afterEnd {k : Fin 64} (h : g.MaintenanceDue id k) :
    g.config.maintIrq ∈ (g.afterEnd id k).cpuQueue id := by
  have hempty : ((g.endPhysical id k).popVCpu id).vCpuQueue id = [] :=
    ((popVCpu_vCpuQueue _ id id).trans (if_pos rfl)).trans h.1
  apply (queuesGrow_combLogic _ id).subset
  unfold nextVirtual
  rw [hempty]
  dsimp only
  have hends : (((g.endPhysical id k).popVCpu id).setCurrentVirtualInterruptId id 1023#32).endsVirtual id = true := h.2
  rw [if_pos hends]
  exact maintIrq_mem_genMaint _ id

/-- The physical interrupt is done when its pending bit is clear, it is not queued a second time, and it is not
a maintenance interrupt that is due. -/
theorem done_afterEnd {k : Fin 64} (h : EnabledBelow config ids g) (hpending : ¬ (g.endPhysical id k).Pending id p)
    (hqueue : ∀ v ∈ (g.cpuQueue id).tail, interruptId v ≠ p)
    (hmaint : ¬ (interruptId g.config.maintIrq = p ∧ g.MaintenanceDue id k)) :
    Done config ids id p (g.afterEnd id k) := by
  have hphysical : Done config ids id p ((g.endPhysical id k).popVCpu id) := by
    refine ⟨⟨h.config, h.cpus, h.below⟩, hpending, ?_⟩
    have hpop : ((g.endPhysical id k).popVCpu id).cpuQueue id = (g.cpuQueue id).tail :=
      (popCpu_cpuQueue _ id id).trans (if_pos rfl)
    rw [hpop]
    exact hqueue
  apply Done.combLogic
  unfold nextVirtual
  split
  · exact hphysical.of_mem rfl rfl rfl rfl rfl
  · rename_i hempty
    have hlast : (g.vCpuQueue id).tail = [] := ((popVCpu_vCpuQueue _ id id).trans (if_pos rfl)).symm.trans hempty
    dsimp only
    split
    · rename_i hends
      apply Done.genMaint
      · exact hphysical.of_mem rfl rfl rfl rfl rfl
      · intro _ hp
        exact hmaint ⟨by rw [h.config]; exact hp, hlast, hends⟩
    · exact hphysical.of_mem rfl rfl rfl rfl rfl

/-! ## Completion -/

/-- Interrupt `p` of CPU `id` is completed by an access: it is not pending any more, it is taken from the front of
the queue, the other pending bits stay, and it is not queued again before it is raised again. -/
structure Completed (id p : ℕ) (g g' : Gic) : Prop where
  cleared : ¬ g'.Pending id p
  removed : ∃ front tail new, g.cpuQueue id = front :: tail ∧ interruptId front = p ∧ g'.cpuQueue id = tail ++ new
  others : ∀ c n, n ≠ p → (g'.Pending c n ↔ g.Pending c n)
  silent : ∀ ops g'', Along Gic.step (Unraised id p) g' ops → runAll ops g' = .ok () g'' →
    ∀ v ∈ g''.cpuQueue id, interruptId v ≠ p

/-- The end of the virtual interrupt of list register `k` completes the interrupt in the mode without the
deactivate register, and either the two numbers are equal or neither interrupt is pending; the queue has the
physical interrupt once, and it is not a maintenance interrupt that is due. -/
structure CompletesPhysical (g : Gic) (id : ℕ) (k : Fin 64) : Prop where
  mode : g.currMode g.config.vCpuBase id = false
  bits : virtualId (g.getVIntEntry k) = physicalId (g.getVIntEntry k) ∨
    (¬ g.Pending id (virtualId (g.getVIntEntry k)) ∧ ¬ g.Pending id (physicalId (g.getVIntEntry k)))
  once : ∀ v ∈ (g.cpuQueue id).tail, interruptId v ≠ physicalId (g.getVIntEntry k)
  maintenance : ¬ (interruptId g.config.maintIrq = physicalId (g.getVIntEntry k) ∧ g.MaintenanceDue id k)

/-- The write of the end-of-interrupt register that returns has ended the entry, unless the mode only
drops the priority. -/
theorem endOfInterrupt_eq {addr : BitVec 64} {value : Word} {len : ℕ} {k : Fin 64} {rest : List (Fin 64)}
    (hplace : g.config.locate addr = some (.vCpu, 0x10)) (hfront : g.vCpuQueue id = k :: rest)
    (hhw : entryHw (g.getVIntEntry k) = true) (hwrite : write (some id) addr value len g = .ok () g') :
    if g.currMode g.config.vCpuBase id then g' = g.combLogic
    else (∃ front tail, g.cpuQueue id = front :: tail ∧ interruptId front = physicalId (g.getVIntEntry k)) ∧
      g' = g.afterEnd id k := by
  have hwp : wp (write (some id) addr value len) (fun _ g' =>
      if g.currMode g.config.vCpuBase id then g' = g.combLogic
      else (∃ front tail, g.cpuQueue id = front :: tail ∧ interruptId front = physicalId (g.getVIntEntry k)) ∧
        g' = g.afterEnd id k) (fun _ _ => True) g := by
    unfold write
    apply wp.step
    rw [wp_get, hplace]
    apply wp.step
    apply wp.step
    rw [wp_get]
    apply wp.ite_pos rfl
    cases hmode : g.currMode g.config.vCpuBase id with
    | true => exact wp.ite_neg (by decide) rfl
    | false =>
      apply wp.ite_pos rfl
      apply (completeVirtual_spec hfront hhw value).mono
      intro _ g₁ ⟨hqueue, hg₁⟩
      rw [wp_modify, if_neg (by decide), hg₁]
      exact ⟨hqueue, rfl⟩
  exact hwp.of_ok hwrite

/-- In every reachable state, the end of a virtual interrupt with a physical one behind it completes the physical
interrupt exactly in these cases. -/
theorem completed_iff {mem : ByteMemory} {behind : ℕ → ℕ → Word} {stack : ℕ → BitVec 8} {history : List GicOp}
    {addr : BitVec 64} {value : Word} {len : ℕ} {k : Fin 64} {rest : List (Fin 64)}
    (hrun : runAll history (start config mem behind stack ids) = .ok () g)
    (hplace : g.config.locate addr = some (.vCpu, 0x10)) (hfront : g.vCpuQueue id = k :: rest)
    (hhw : entryHw (g.getVIntEntry k) = true) (hwrite : write (some id) addr value len g = .ok () g') :
    Completed id (physicalId (g.getVIntEntry k)) g g' ↔ g.CompletesPhysical id k := by
  have hbelow : EnabledBelow config ids g := enabledBelow_of_run hrun
  have hend := endOfInterrupt_eq hplace hfront hhw hwrite
  constructor
  · intro h
    obtain ⟨front, tail, new, hqueue, hphysical, hqueue'⟩ := h.removed
    have hnow : ∀ v ∈ g'.cpuQueue id, interruptId v ≠ physicalId (g.getVIntEntry k) := h.silent [] g' trivial rfl
    cases hmode : g.currMode g.config.vCpuBase id with
    | true =>
      -- nothing was completed, so the front is still there
      rw [hmode, if_pos rfl] at hend
      apply absurd hphysical (hnow front _)
      rw [hend]
      apply (queuesGrow_combLogic g id).subset
      rw [hqueue]
      exact List.mem_cons_self
    | false =>
      rw [hmode, if_neg (by decide)] at hend
      rw [hend.2] at h hnow
      refine ⟨hmode, ?_, ?_, ?_⟩
      · by_cases hsame : virtualId (g.getVIntEntry k) = physicalId (g.getVIntEntry k)
        · exact .inl hsame
        · refine .inr ⟨fun hpending => ?_, fun hpending => ?_⟩
          · have hcleared := (h.others id _ hsame).2 hpending
            exact ((pending_afterEnd g id k id _).1 hcleared).1 ⟨rfl, rfl⟩
          · exact h.cleared ((pending_afterEnd g id k id _).2 ⟨fun heq => hsame heq.2.symm, hpending⟩)
      · exact fun v hv => hnow v ((queue_afterEnd g id k).subset hv)
      · intro ⟨hmaint, hdue⟩
        exact hnow _ (maintIrq_mem_afterEnd hdue) hmaint
  · intro h
    rw [h.mode, if_neg (by decide)] at hend
    obtain ⟨⟨front, tail, hqueue, hphysical⟩, hend⟩ := hend
    have hcleared : ¬ (g.endPhysical id k).Pending id (physicalId (g.getVIntEntry k)) := by
      rw [pending_endPhysical]
      intro ⟨hother, hpending⟩
      rcases h.bits with hsame | ⟨_, hnone⟩
      · exact hother ⟨rfl, hsame.symm⟩
      · exact hnone hpending
    have hdone := done_afterEnd hbelow hcleared h.once h.maintenance
    rw [← hend] at hdone
    obtain ⟨new, hnew⟩ := queue_afterEnd g id k
    refine ⟨hdone.pending, ⟨front, tail, new, hqueue, hphysical, ?_⟩, fun c n hn => ?_, ?_⟩
    · rw [hend, ← hnew, hqueue, List.tail_cons]
    · rw [hend, pending_afterEnd]
      apply and_iff_right_of_imp
      intro hpending ⟨hc, hv⟩
      rcases h.bits with hsame | ⟨hnone, _⟩
      · exact hn (hv.trans hsame)
      · rw [hc, hv] at hpending
        exact hnone hpending
    · exact fun ops g'' hops hruns => (hdone.runAll hops hruns).queue

/-- Input line 33 reaches CPU 0, whose hypervisor lists it with the number `virtual`. -/
def listLine (entry : Word) : List GicOp :=
  [.write (some 0) 0#64 1#32 4, .write (some 0) 0x1000#64 1#32 4, .write (some 0) 0x104#64 2#32 4,
    .write (some 0) 0x820#64 0x100#32 4, .updateIrq 1#64 33#32, .write (some 0) 0x10100#64 entry 4]

/-- The state then. -/
def listed (entry : Word) : Gic := endState (runAll (listLine entry) (small [0]))

/-- Listed under its own number, the interrupt is completed. -/
theorem completed_same_number :
    ∃ g', write (some 0) 0x2010#64 33#32 4 (listed 0x90008421#32) = .ok () g' ∧
      Completed 0 33 (listed 0x90008421#32) g' := by
  have hrun : runAll (listLine 0x90008421#32) (small [0]) = .ok () (listed 0x90008421#32) :=
    eq_ok_endState (by decide +kernel)
  have hwrite : write (some 0) 0x2010#64 33#32 4 (listed 0x90008421#32) =
      .ok () (endState (write (some 0) 0x2010#64 33#32 4 (listed 0x90008421#32))) :=
    eq_ok_endState (by decide +kernel)
  have hplace : (listed 0x90008421#32).config.locate 0x2010#64 = some (.vCpu, 0x10) := by decide +kernel
  have hfront : (listed 0x90008421#32).vCpuQueue 0 = [0] := by decide +kernel
  have hp : physicalId ((listed 0x90008421#32).getVIntEntry (0 : Fin 64)) = 33 := by decide +kernel
  have hv : virtualId ((listed 0x90008421#32).getVIntEntry (0 : Fin 64)) = 33 := by decide +kernel
  have hhw : entryHw ((listed 0x90008421#32).getVIntEntry (0 : Fin 64)) = true := by decide +kernel
  have honce : (listed 0x90008421#32).cpuQueue 0 = [33#32] := by decide +kernel
  have hmaint : interruptId (listed 0x90008421#32).config.maintIrq = 25 := by decide +kernel
  have hcompletes : (listed 0x90008421#32).CompletesPhysical 0 0 := by
    refine ⟨by decide +kernel, .inl (hv.trans hp.symm), ?_, ?_⟩
    · rw [honce]
      exact nofun
    · rw [hmaint, hp]
      exact fun h => absurd h.1 (by decide)
  have hcompleted := (completed_iff hrun hplace hfront hhw hwrite).2 hcompletes
  rw [hp] at hcompleted
  exact ⟨_, hwrite, hcompleted⟩

/-- Listed as 34, interrupt 33 stays pending and is queued again. -/
theorem not_completed_other_number :
    ∃ g', write (some 0) 0x2010#64 34#32 4 (listed 0x90008422#32) = .ok () g' ∧
      (listed 0x90008422#32).vCpuQueue 0 = [0] ∧ entryHw ((listed 0x90008422#32).getVIntEntry (0 : Fin 64)) = true ∧
      physicalId ((listed 0x90008422#32).getVIntEntry (0 : Fin 64)) = 33 ∧
      g'.cpuQueue 0 = [33#32] ∧ ¬ Completed 0 33 (listed 0x90008422#32) g' := by
  have hwrite : write (some 0) 0x2010#64 34#32 4 (listed 0x90008422#32) =
      .ok () (endState (write (some 0) 0x2010#64 34#32 4 (listed 0x90008422#32))) :=
    eq_ok_endState (by decide +kernel)
  have hpending : (endState (write (some 0) 0x2010#64 34#32 4 (listed 0x90008422#32))).Pending 0 33 := by
    unfold Pending
    decide +kernel
  exact ⟨_, hwrite, by decide +kernel, by decide +kernel, by decide +kernel, by decide +kernel,
    fun h => h.cleared hpending⟩

end Gic

end Vpsim.Peripherals
