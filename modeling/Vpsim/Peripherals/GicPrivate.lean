import Vpsim.Peripherals.GicFootprint

/-!
# Private interrupts

A software or private interrupt that is pending for a CPU should stay deliverable to it until the
CPU completes it. Pending bits are kept for each CPU, but the byte that says which CPUs an
interrupt is sent to is shared: the next event for the same number overwrites it, and a CPU that
has not taken the interrupt yet is no longer in it.
-/

namespace Vpsim.Peripherals

open Vpsim.Lib

namespace Gic

variable {g g' : Gic} {config : GicConfig} {ids : List ℕ} {c n : ℕ}

/-- Interrupt `n` is pending for CPU `c`. -/
def Pending (g : Gic) (c n : ℕ) : Prop := (g.pendingInterrupts c (n / 32)).getLsbD (n % 32)

/-- Setting or clearing one pending bit leaves the others. -/
theorem pending_putPending (g : Gic) (cpu interrupt : ℕ) (value : Word) :
    (g.putPending cpu interrupt value).Pending c n ↔
      (c = cpu ∧ n = interrupt ∧ value ≠ 0#32) ∨ (¬ (c = cpu ∧ n = interrupt) ∧ g.Pending c n) := by
  have hlt : n % 32 < 32 := Nat.mod_lt _ (by omega)
  unfold Pending putPending
  dsimp only
  by_cases hcpu : c = cpu
  · subst hcpu
    rw [Function.update_self]
    by_cases hword : n / 32 = interrupt / 32
    · have hbit : n % 32 = interrupt % 32 ↔ n = interrupt := by omega
      rw [hword, Function.update_self]
      by_cases hv : value = 0#32
      · rw [if_neg (not_not.mpr hv), getLsbD_clearBit hlt]
        simp [hv, hbit, and_comm]
      · rw [if_pos hv, getLsbD_setBit hlt]
        by_cases hn : n = interrupt
        · simp [hv, hn]
        · simp [hn, hbit]
    · have hn : n ≠ interrupt := fun h => hword (h ▸ rfl)
      rw [Function.update_of_ne hword]
      simp [hn]
  · rw [Function.update_of_ne hcpu]
    simp [hcpu]

/-! ## Delivery -/

/-- The acknowledge words of the CPUs lie outside the distributor and outside the control and
mask registers of the CPU interfaces. -/
structure AckApart (config : GicConfig) (ids : List ℕ) : Prop where
  dist : ∀ c ∈ ids, ∀ a, InBlock (ackAddr config c) 4 a ∨ InBlock (vAckAddr config c) 4 a →
    ¬ (config.distBase ≤ a + 3 ∧ a < config.distBase + 0x1000)
  control : ∀ c ∈ ids, ∀ d ∈ ids, ∀ a, InBlock (ackAddr config c) 4 a ∨ InBlock (vAckAddr config c) 4 a →
    ¬ (config.cpuBase + 0x100 * d ≤ a + 3 ∧ a < config.cpuBase + 0x100 * d + 8)

/-- A byte outside all acknowledge words is quiet. -/
theorem quiet_of_apart {a : ℕ} (hconfig : g.config = config) (hcpus : g.cpus = ids)
    (h : ∀ d ∈ ids, ¬ (InBlock (ackAddr config d) 4 a ∨ InBlock (vAckAddr config d) 4 a)) : g.Quiet a := by
  intro d hd
  have hout := not_or.mp (h d (hcpus ▸ hd))
  rw [hconfig]
  exact ⟨fun hin => absurd hin hout.1, hout.2⟩

/-- Nothing but its place in the queue stands between CPU `c` and interrupt `n`. -/
structure Open (g : Gic) (c n : ℕ) : Prop where
  enabled : g.isEnabled = true
  takes : g.cpuTakesInterrupts c = true
  status : findEntry n (g.enableStatus c) = some true
  priority : ¬ g.getInterruptPriority n > g.getCpuPriorityMask c

/-- An interrupt that can be delivered is in the queue. -/
def Delivered (g : Gic) (c n : ℕ) : Prop := g.Open c n → ∃ v ∈ g.cpuQueue c, interruptId v = n

/-- Serving leaves the distributor and the control registers of the CPU interfaces alone. -/
theorem Serves.mem_registers (h : Serves g g') (hconfig : g.config = config) (hcpus : g.cpus = ids)
    (hapart : AckApart config ids) (hc : c ∈ ids) :
    (∀ a, config.distBase ≤ a + 3 → a < config.distBase + 0x1000 → g'.mem a = g.mem a) ∧
      ∀ a, config.cpuBase + 0x100 * c ≤ a + 3 → a < config.cpuBase + 0x100 * c + 8 → g'.mem a = g.mem a := by
  constructor
  · intro a hlow hhigh
    apply h.mem
    exact quiet_of_apart (h.config.trans hconfig) (h.cpus.trans hcpus) fun d hd hbyte =>
      hapart.dist d hd a hbyte ⟨hlow, hhigh⟩
  · intro a hlow hhigh
    apply h.mem
    exact quiet_of_apart (h.config.trans hconfig) (h.cpus.trans hcpus) fun d hd hbyte =>
      hapart.control d hd c hc a hbyte ⟨hlow, hhigh⟩

/-- Serving does not switch a CPU on or off. -/
theorem Serves.control_eq (h : Serves g g') (hconfig : g.config = config) (hcpus : g.cpus = ids)
    (hapart : AckApart config ids) (hc : c ∈ ids) :
    g'.isEnabled = g.isEnabled ∧ g'.cpuTakesInterrupts c = g.cpuTakesInterrupts c := by
  obtain ⟨hdist, hcontrol⟩ := h.mem_registers hconfig hcpus hapart hc
  constructor
  · unfold isEnabled
    rw [h.config, hconfig, getLsbD_loadWord (by omega), getLsbD_loadWord (by omega), hdist _ (by omega) (by omega)]
  · unfold cpuTakesInterrupts
    rw [h.config, hconfig, getLsbD_loadWord (by omega), getLsbD_loadWord (by omega), hcontrol _ (by omega) (by omega)]

/-- Serving changes neither the enables nor the priorities. -/
theorem Serves.open_iff (h : Serves g g') (hconfig : g.config = config) (hcpus : g.cpus = ids)
    (hapart : AckApart config ids) (hc : c ∈ ids) (hn : n < 0x400) : g'.Open c n ↔ g.Open c n := by
  obtain ⟨hdist, hcontrol⟩ := h.mem_registers hconfig hcpus hapart hc
  obtain ⟨hen, htakes⟩ := h.control_eq hconfig hcpus hapart hc
  have hprio : g'.getInterruptPriority n = g.getInterruptPriority n := by
    unfold getInterruptPriority
    rw [h.config, hconfig, hdist _ (by omega) (by omega)]
  have hmask : g'.getCpuPriorityMask c = g.getCpuPriorityMask c := by
    unfold getCpuPriorityMask
    rw [h.config, hconfig, hcontrol _ (by omega) (by omega)]
  constructor
  · rintro ⟨h1, h2, h3, h4⟩
    exact ⟨hen ▸ h1, htakes ▸ h2, h.enableStatus ▸ h3, by rwa [hprio, hmask] at h4⟩
  · rintro ⟨h1, h2, h3, h4⟩
    exact ⟨hen ▸ h1, htakes ▸ h2, by rw [h.enableStatus]; exact h3, by rwa [hprio, hmask]⟩

/-- The interrupt is sent to the CPU and pending for it. -/
structure Armed (config : GicConfig) (ids : List ℕ) (c n : ℕ) (g : Gic) : Prop where
  config : g.config = config
  cpus : g.cpus = ids
  target : g.cpuInTarget n c = true
  pending : g.Pending c n

theorem Armed.serves (h : Armed config ids c n g) (hapart : AckApart config ids) (hn : n < 32)
    (hs : Serves g g') : Armed config ids c n g' where
  config := hs.config.trans h.config
  cpus := hs.cpus.trans h.cpus
  target := by
    unfold cpuInTarget
    rw [hs.config, hs.mem]
    · exact h.target
    · refine quiet_of_apart (hs.config.trans h.config) (hs.cpus.trans h.cpus) fun d hd hbyte => ?_
      rw [h.config] at hbyte
      exact hapart.dist d hd _ hbyte ⟨by omega, by omega⟩
  pending := by
    unfold Pending
    rw [hs.pendingInterrupts]
    exact h.pending

/-- The scan of the map queues the interrupt. -/
theorem Armed.scan (h : Armed config ids c n g) (hapart : AckApart config ids) (hc : c ∈ ids) (hn : n < 32)
    (hopen : g.Open c n) :
    ∃ v ∈ ((g.enableStatus c).foldl (serveEntry c) g).cpuQueue c, interruptId v = n := by
  obtain ⟨before, after, hsplit⟩ := List.append_of_mem (mem_of_findEntry hopen.status)
  rw [hsplit, List.foldl_append, List.foldl_cons]
  have hbefore : Serves g (before.foldl (serveEntry c) g) :=
    serves_scan before fun e he => by rw [hsplit]; exact List.mem_append_left _ he
  have harmed := h.serves hapart hn hbefore
  have hopen' := (hbefore.open_iff h.config h.cpus hapart hc (by omega)).mpr hopen
  generalize before.foldl (serveEntry c) g = g₁ at hbefore harmed hopen'
  have hafter : Serves (serveEntry c g₁ (n, true)) (after.foldl (serveEntry c) (serveEntry c g₁ (n, true))) := by
    have hentry : (n, true) ∈ g₁.enableStatus c := by
      rw [hbefore.enableStatus, hsplit]
      exact List.mem_append_right _ List.mem_cons_self
    apply serves_scan
    intro e he
    rw [(serves_serveEntry hentry).enableStatus, hbefore.enableStatus, hsplit]
    exact List.mem_append_right _ (List.mem_cons_of_mem _ he)
  have hqueued : g₁.ackValue c n ∈ (serveEntry c g₁ (n, true)).cpuQueue c := by
    -- recording the index leaves all the tests of the entry as they are
    have hprio : ¬ (g₁.record (.index c (n / 32))).getInterruptPriority n >
        (g₁.record (.index c (n / 32))).getCpuPriorityMask c := hopen'.priority
    have hbits : ((g₁.pendingInterrupts c (n / 32)).getLsbD (n % 32) &&
        (g₁.record (.index c (n / 32))).cpuInTarget n c) = true :=
      Bool.and_eq_true_iff.mpr ⟨harmed.pending, harmed.target⟩
    have hstatus : findEntry n ((g₁.record (.index c (n / 32))).enableStatus c) = some true := hopen'.status
    unfold serveEntry
    dsimp only
    rw [if_neg hprio, if_pos hbits, if_pos hstatus]
    split
    · assumption
    · change _ ∈ ((g₁.record (.index c (n / 32))).pushCpu c (g₁.ackValue c n)).cpuQueue c
      simp
  obtain ⟨new, hq, -⟩ := hafter.cpuQueue c
  refine ⟨g₁.ackValue c n, ?_, interruptId_ackValue (by omega)⟩
  rw [hq]
  exact List.mem_append_left _ hqueued

/-- A round of the combinational logic delivers an interrupt that is sent and pending. -/
theorem Armed.combLogic (h : Armed config ids c n g) (hapart : AckApart config ids) (hc : c ∈ ids) (hn : n < 32) :
    g.combLogic.Delivered c n := by
  intro hopen
  have hmem : c ∈ g.cpus.rotate (g.roundRobin + 1) := by
    rw [List.mem_rotate, h.cpus]
    exact hc
  have hopen₀ : g.Open c n := ((serves_combLogic g).open_iff h.config h.cpus hapart hc (by omega)).mp hopen
  unfold Gic.combLogic
  obtain ⟨before, after, hsplit⟩ := List.append_of_mem hmem
  have hsub : ∀ d ∈ before ++ c :: after, d ∈ g.cpus := fun d hd => List.mem_rotate.mp (hsplit ▸ hd)
  rw [hsplit, List.foldl_append, List.foldl_cons]
  have hbefore : Serves g (before.foldl serveCpu g) :=
    serves_foldl before fun d hd => hsub d (List.mem_append_left _ hd)
  have harmed := h.serves hapart hn hbefore
  have hopen' := (hbefore.open_iff h.config h.cpus hapart hc (by omega)).mpr hopen₀
  generalize before.foldl serveCpu g = g₁ at hbefore harmed hopen'
  have hserved : Serves g₁ (g₁.serveCpu c) := serves_serveCpu (by rw [harmed.cpus]; exact hc)
  have hafter : Serves (g₁.serveCpu c) (after.foldl serveCpu (g₁.serveCpu c)) := by
    apply serves_foldl
    intro d hd
    rw [hserved.cpus, hbefore.cpus]
    exact hsub d (List.mem_append_right _ (List.mem_cons_of_mem _ hd))
  obtain ⟨v, hv, hid⟩ := harmed.scan hapart hc hn hopen'
  have hkeep : v ∈ (g₁.serveCpu c).cpuQueue c := by
    have hscan : Serves g₁ ((g₁.enableStatus c).foldl (serveEntry c) g₁) := serves_scan _ fun _ he => he
    obtain ⟨new, hq, -⟩ := (serves_present (by rw [hscan.cpus, harmed.cpus]; exact hc)).cpuQueue c
    unfold serveCpu
    rw [if_neg (by simp [hopen'.enabled, hopen'.takes]), hq]
    exact List.mem_append_left _ hv
  obtain ⟨new, hq, -⟩ := hafter.cpuQueue c
  refine ⟨v, ?_, hid⟩
  rw [hq]
  exact List.mem_append_left _ hkeep

/-! ## What keeps an interrupt armed -/

/-- The byte that says to which CPUs an interrupt is sent. -/
def targetAddr (config : GicConfig) (n : ℕ) : ℕ := config.distBase + 0x800 + n

/-- A change that leaves the target byte and the pending words alone. -/
theorem Armed.of_spares (h : Armed config ids c n g) (hapart : AckApart config ids) (hn : n < 32)
    (hs : Spares config (targetAddr config n) g g') (hp : g'.pendingInterrupts = g.pendingInterrupts) :
    Armed config ids c n g' := by
  obtain ⟨hconfig, hcpus, hmem⟩ := hs h.config
  refine ⟨hconfig, hcpus.trans h.cpus, ?_, ?_⟩
  · have htarget := h.target
    unfold cpuInTarget at htarget ⊢
    rw [hconfig]
    rw [h.config] at htarget
    change (g'.mem (targetAddr config n)).getLsbD c = true
    have hquiet : g'.Quiet (targetAddr config n) := by
      refine quiet_of_apart hconfig (hcpus.trans h.cpus) fun d hd hbyte => ?_
      exact hapart.dist d hd _ hbyte ⟨by unfold targetAddr; omega, by unfold targetAddr; omega⟩
    rw [(hmem hquiet).2]
    exact htarget
  · unfold Pending
    rw [hp]
    exact h.pending

/-- Another pending bit changes, or this one is set. -/
theorem Armed.putPending (h : Armed config ids c n g) {cpu interrupt : ℕ} {value : Word}
    (hother : cpu = c → interrupt = n → value ≠ 0#32) :
    Armed config ids c n (g.putPending cpu interrupt value) := by
  refine ⟨h.config, h.cpus, h.target, ?_⟩
  rw [pending_putPending]
  by_cases heq : c = cpu ∧ n = interrupt
  · exact Or.inl ⟨heq.1, heq.2, hother heq.1.symm heq.2.symm⟩
  · exact Or.inr ⟨heq, h.pending⟩

/-- States in which the interrupt stays armed once it is. -/
def StaysArmed (config : GicConfig) (ids : List ℕ) (c n : ℕ) (g g' : Gic) : Prop :=
  Armed config ids c n g → Armed config ids c n g'

instance : IsPreorder Gic (StaysArmed config ids c n) where
  refl _ h := h
  trans _ _ _ h h' harmed := h' (h harmed)

/-- Code that keeps the interrupt armed from a state ends with it armed. -/
theorem Armed.of_wp {x : GicM Unit} (h : Armed config ids c n g)
    (hx : wp x (fun _ => StaysArmed config ids c n g) (fun _ => StaysArmed config ids c n g) g) :
    wp x (fun _ => Armed config ids c n) (fun _ => Armed config ids c n) g := by
  unfold wp at hx ⊢
  split at hx
  · exact hx h
  · exact hx h

/-- The target byte that is written is read back. -/
theorem cpuInTarget_setInterruptTarget (g : Gic) (n : ℕ) (targets : BitVec 8) (c : ℕ) :
    (g.setInterruptTarget n targets).cpuInTarget n c = targets.getLsbD c := by
  simp only [cpuInTarget, setInterruptTarget, putByte, storeByte_self]

@[simp] theorem genMaint_pendingInterrupts (g : Gic) (cpu : ℕ) :
    (g.genMaint cpu).pendingInterrupts = g.pendingInterrupts := by
  have hserve := (serves_genMaint g cpu).pendingInterrupts
  split at hserve
  · exact hserve
  · exact hserve

theorem nextVirtual_pendingInterrupts (g : Gic) (id : ℕ) :
    ((g.popVCpu id).nextVirtual id).pendingInterrupts = g.pendingInterrupts := by
  unfold nextVirtual
  split
  · rfl
  · dsimp only
    split
    · rw [genMaint_pendingInterrupts]
      rfl
    · rfl

theorem listEntry_pendingInterrupts (g : Gic) (which : Fin 64) (value : Word) (id : ℕ) :
    (g.listEntry which value id).pendingInterrupts = g.pendingInterrupts := by
  unfold listEntry
  dsimp only
  split
  · rfl
  · split
    · rfl
    · rfl

theorem notifyEmpty_pendingInterrupts (g : Gic) (id : ℕ) :
    (g.notifyEmpty id).pendingInterrupts = g.pendingInterrupts := by
  unfold notifyEmpty
  split
  · rw [genMaint_pendingInterrupts]
    rfl
  · rfl

/-- CPU `c` completes interrupt `n`, itself or together with a virtual interrupt. -/
def Completes (g : Gic) (op : GicOp) (c n : ℕ) : Prop :=
  ∃ w, g.config.guestWrite op = some w ∧ w.id = c ∧ isCompletion w.offset ∧
    ((w.region = .cpu ∧ g.Effective g.config.cpuBase w.offset c ∧ interruptId w.value = n) ∨
      (w.region = .vCpu ∧ g.Effective g.config.vCpuBase w.offset c ∧
        ∃ k rest, g.vCpuQueue c = k :: rest ∧ entryHw (g.getVIntEntry k) ∧ physicalId (g.getVIntEntry k) = n))

/-- A guest write does not take CPU `c` out of the target byte of interrupt `n`: a software
interrupt with that number goes to `c` too, a plain write to the distributor keeps the bit, and
the other regions are apart from the byte. The end of a virtual interrupt with that number ends
the same physical interrupt. -/
structure KeepsPrivate (g : Gic) (w : GuestWrite) (c n : ℕ) : Prop where
  sgi : w.region = .dist → w.offset = 0xF00 → sgiNumber w.value = n → (sgiTargets w.value w.id).getLsbD c
  plain : w.region = .dist → w.offset ≠ 0xF00 → ∀ i < w.len, w.offset + i = 0x800 + n →
    (if i < 4 then wordByte w.value i else g.stack (i - 4)).getLsbD c
  apart : w.region ≠ .dist → ¬ w.Stores g.config (targetAddr g.config n)
  virtual : w.region = .vCpu → w.id = c → isCompletion w.offset → g.Effective g.config.vCpuBase w.offset c →
    ∀ k rest, g.vCpuQueue c = k :: rest → entryHw (g.getVIntEntry k) → interruptId w.value = n →
      physicalId (g.getVIntEntry k) = n

/-- An input line with the number of a private interrupt that is sent to some CPU is sent to `c`
too, and is not lowered for it. -/
def KeepsLine (g : Gic) (val : BitVec 64) (irqIdx : Word) (c n : ℕ) : Prop :=
  actualIrq irqIdx = n → (∃ cpu ∈ g.cpus, (irqIdx >>> 16).getLsbD cpu) →
    ((irqIdx >>> 16).setWidth 8).getLsbD c ∧ ((irqIdx >>> 16).getLsbD c → val.setWidth 32 ≠ 0#32)

theorem staysArmed_writeDist (hapart : AckApart config ids) (hn : n < 32) {w : GuestWrite}
    (hregion : w.region = .dist) (harmed : Armed config ids c n g) (hkeep : g.KeepsPrivate w c n) :
    wp (writeDist w.offset w.value w.len w.id) (fun _ => Armed config ids c n) (fun _ => Armed config ids c n) g := by
  unfold writeDist
  split
  · rename_i hoff
    obtain ⟨mem, map, heq, hmem, -⟩ := enableBits_spec g hoff.1 hoff.2 w.value w.id
    rw [wp_modify, heq]
    refine harmed.of_spares hapart hn (Spares.of_mem rfl rfl rfl fun hc => hmem _ (Or.inr ?_)) rfl
    unfold targetAddr
    rw [hc]
    omega
  · split
    · rename_i hoff
      obtain ⟨mem, map, heq, hmem, -⟩ := disableBits_spec g hoff.1 hoff.2 w.value w.id
      rw [wp_modify, heq]
      refine harmed.of_spares hapart hn (Spares.of_mem rfl rfl rfl fun hc => hmem _ (Or.inr ?_)) rfl
      unfold targetAddr
      rw [hc]
      omega
    · split
      · rename_i hoff
        have hkeeps : Keeps (StaysArmed config ids c n) (generateSgi w.value w.id) := by
          apply keeps_generateSgi
          · intro g harmed
            by_cases hnum : sgiNumber w.value = n
            · refine ⟨harmed.config, harmed.cpus, ?_, harmed.pending⟩
              rw [hnum, cpuInTarget_setInterruptTarget]
              exact hkeep.sgi hregion hoff hnum
            · refine harmed.of_spares hapart hn (spares_putByte fun hc => ?_) rfl
              unfold targetAddr
              rw [hc]
              omega
          · intro g cpuT _ harmed
            have harmed' : Armed config ids c n ((g.putOrigin cpuT (sgiNumber w.value) w.id).record
                (.index cpuT (sgiNumber w.value / 32))) := ⟨harmed.config, harmed.cpus, harmed.target, harmed.pending⟩
            exact harmed'.putPending fun _ _ => by decide
        exact harmed.of_wp (hkeeps g)
      · rename_i hoff
        rw [wp_modify]
        refine ⟨harmed.config, harmed.cpus, ?_, harmed.pending⟩
        have htarget := harmed.target
        unfold cpuInTarget at htarget ⊢
        simp only [memcpy]
        by_cases hin : w.offset ≤ 0x800 + n ∧ 0x800 + n < w.offset + w.len
        · obtain ⟨i, hi⟩ := Nat.exists_eq_add_of_le hin.1
          have hplain := hkeep.plain hregion hoff i (by omega) hi.symm
          have haddr : g.config.distBase + 0x800 + n = g.config.distBase + w.offset + i := by omega
          rw [haddr, store_add (by omega)]
          exact hplain
        · rw [store_frame (by omega)]
          exact htarget

theorem staysArmed_writeCpu (hapart : AckApart config ids) (hn : n < 32) {w : GuestWrite} {op : GicOp}
    (hw : g.config.guestWrite op = some w) (hregion : w.region = .cpu) (harmed : Armed config ids c n g)
    (hkeep : g.KeepsPrivate w c n) (hnot : ¬ g.Completes op c n) :
    wp (writeCpu w.offset w.value w.len w.id) (fun _ => Armed config ids c n) (fun _ => Armed config ids c n) g := by
  have hstores := hkeep.apart (by rw [hregion]; decide)
  rw [harmed.config] at hstores
  unfold GuestWrite.Stores at hstores
  simp only [hregion] at hstores
  apply harmed.of_wp
  apply wp_writeCpu
  · intro hoff heff
    rw [if_pos hoff] at hstores
    apply keeps_completeInterrupt
    · intro g i h
      exact ⟨h.config, h.cpus, h.target, h.pending⟩
    · intro g h
      exact ⟨h.config, h.cpus, h.target, h.pending⟩
    · intro g' h
      apply h.putPending
      intro hid hvalue
      exact absurd ⟨w, hw, hid, hoff, Or.inl ⟨hregion, hid ▸ heff, hvalue⟩⟩ hnot
    · intro g m h
      exact h.putPending fun _ _ => by decide
    · intro g v h
      refine h.of_spares hapart hn (spares_putWord fun hc => ?_) rfl
      rw [hc]
      exact hstores
    · intro g h
      exact ⟨h.config, h.cpus, h.target, h.pending⟩
  · intro hoff h
    rw [if_neg hoff] at hstores
    refine h.of_spares hapart hn (spares_memcpy fun hc => ?_) rfl
    rw [hc]
    exact hstores

theorem staysArmed_writeVCpu (hapart : AckApart config ids) (hn : n < 32) {w : GuestWrite} {op : GicOp}
    (hw : g.config.guestWrite op = some w) (hregion : w.region = .vCpu) (harmed : Armed config ids c n g)
    (hkeep : g.KeepsPrivate w c n) (hnot : ¬ g.Completes op c n) :
    wp (writeVCpu w.offset w.value w.len w.id) (fun _ => Armed config ids c n) (fun _ => Armed config ids c n) g := by
  have hstores := hkeep.apart (by rw [hregion]; decide)
  rw [harmed.config] at hstores
  unfold GuestWrite.Stores at hstores
  simp only [hregion] at hstores
  apply harmed.of_wp
  apply wp_writeVCpu
  · intro hoff heff
    rw [if_pos hoff, not_or] at hstores
    apply wp_completeVirtual
    · intro k rest _ h
      exact ⟨h.config, h.cpus, h.target, h.pending⟩
    · intro k rest _ g' h
      exact h.of_spares hapart hn (spares_retireEntry hstores.2 g' k) rfl
    · intro k rest hqueue hvalue
      apply keeps_endEntry
      · intro g i h
        exact ⟨h.config, h.cpus, h.target, h.pending⟩
      · intro _ g h
        exact ⟨h.config, h.cpus, h.target, h.pending⟩
      · intro hhw g' h
        apply h.putPending
        intro hid hn'
        subst hid
        have hphys := hkeep.virtual hregion rfl hoff heff k rest hqueue hhw hn'
        exact absurd ⟨w, hw, rfl, hoff, Or.inr ⟨hregion, heff, k, rest, hqueue, hhw, hphys⟩⟩ hnot
      · intro g h
        exact h.of_spares hapart hn (spares_notifyEnd hstores.2 g k) (genMaint_pendingInterrupts _ _)
    · intro g h
      exact h.of_spares hapart hn (spares_nextVirtual hstores.2 hstores.1 g) (nextVirtual_pendingInterrupts g w.id)
  · intro hoff h
    rw [if_neg hoff] at hstores
    refine h.of_spares hapart hn (spares_memcpy fun hc => ?_) rfl
    rw [hc]
    exact hstores

theorem staysArmed_writeVDist (hapart : AckApart config ids) (hn : n < 32) {w : GuestWrite}
    (hregion : w.region = .vDist) (harmed : Armed config ids c n g) (hkeep : g.KeepsPrivate w c n) :
    wp (writeVDist w.offset w.value w.id) (fun _ => Armed config ids c n) (fun _ => Armed config ids c n) g := by
  have hstores := hkeep.apart (by rw [hregion]; decide)
  rw [harmed.config] at hstores
  unfold GuestWrite.Stores at hstores
  simp only [hregion, not_or] at hstores
  obtain ⟨hword, hlist, hforward⟩ := hstores
  apply harmed.of_wp
  apply wp_writeVDist
  · intro hoff h
    have hbyte : ¬ config.ListByte w.id (targetAddr config n) := fun hbyte => hlist ⟨hoff.1, hoff.2, hbyte⟩
    exact h.of_spares hapart hn (spares_listEntry hbyte g _ _) (listEntry_pendingInterrupts g _ _ _)
  · intro hoff g h
    have hbyte : ¬ config.ListByte w.id (targetAddr config n) := fun hbyte => hlist ⟨hoff.1, hoff.2, hbyte⟩
    exact h.of_spares hapart hn (spares_notifyEmpty hbyte g) (notifyEmpty_pendingInterrupts g _)
  · intro g h
    refine h.of_spares hapart hn (spares_putWord fun hc => ?_) rfl
    rw [vDistBank, hc]
    exact hword
  · intro hoff g off v hcases h
    refine h.of_spares hapart hn (spares_memcpy fun hc => ?_) rfl
    rw [hc]
    intro hbyte
    unfold InBlock at hbyte hforward
    omega

theorem staysArmed_raiseLine (hapart : AckApart config ids) (hn : n < 32) {val : BitVec 64} {irqIdx : Word}
    (harmed : Armed config ids c n g) (hc : c ∈ ids) (hkeep : g.KeepsLine val irqIdx c n) :
    wp (raiseLine val irqIdx) (fun _ => Armed config ids c n) (fun _ => Armed config ids c n) g := by
  apply harmed.of_wp
  apply wp_raiseLine
  · intro g cpu i h
    exact ⟨h.config, h.cpus, h.target, h.pending⟩
  · intro g' cpu hsent h
    apply h.putPending
    intro hcpu hirq
    subst hcpu
    have hbit : (irqIdx >>> 16).getLsbD cpu := by
      rcases hsent with hspi | hbit
      · omega
      · exact hbit
    exact (hkeep hirq ⟨cpu, harmed.cpus ▸ hc, hbit⟩).2 hbit
  · intro _ cpu hcpu hbit g' h
    by_cases hirq : actualIrq irqIdx = n
    · refine ⟨h.config, h.cpus, ?_, h.pending⟩
      rw [hirq, cpuInTarget_setInterruptTarget]
      exact (hkeep hirq ⟨cpu, hcpu, hbit⟩).1
    · refine h.of_spares hapart hn (spares_putByte fun hconfig => ?_) rfl
      unfold targetAddr
      rw [hconfig]
      omega

/-- The operation makes private interrupt `n` pending for CPU `c`: a software interrupt sent to it,
or the raised line of one of its private interrupts. -/
def MakesPending (g : Gic) (op : GicOp) (c n : ℕ) : Prop :=
  (∃ w, g.config.guestWrite op = some w ∧ w.region = .dist ∧ w.offset = 0xF00 ∧ sgiNumber w.value = n ∧
    (sgiTargets w.value w.id).getLsbD c ∧ c < g.cpus.length) ∨
  (∃ val irqIdx, op = .updateIrq val irqIdx ∧ actualIrq irqIdx = n ∧ 16 ≤ n ∧ n < 32 ∧
    (irqIdx >>> 16).getLsbD c ∧ val.setWidth 32 ≠ 0#32)

/-- An operation takes no CPU out of the target byte of a private interrupt that is pending for
it. -/
def KeepsTargets (g : Gic) (op : GicOp) : Prop :=
  ∀ c ∈ g.cpus, ∀ n < 32, g.Pending c n ∨ g.MakesPending op c n →
    (∀ w, g.config.guestWrite op = some w → g.KeepsPrivate w c n) ∧
    ∀ val irqIdx, op = .updateIrq val irqIdx → g.KeepsLine val irqIdx c n

/-- The interrupt is armed, and delivered if it can be. -/
structure Live (config : GicConfig) (ids : List ℕ) (c n : ℕ) (g : Gic) : Prop where
  armed : Armed config ids c n g
  delivered : g.Delivered c n

/-- A round makes an armed interrupt live. -/
theorem Armed.live (h : Armed config ids c n g) (hapart : AckApart config ids) (hc : c ∈ ids) (hn : n < 32) :
    Live config ids c n g.combLogic :=
  ⟨h.serves hapart hn (serves_combLogic g), h.combLogic hapart hc hn⟩

/-- One operation that does not complete the interrupt keeps it live. -/
theorem Live.step (hapart : AckApart config ids) (hc : c ∈ ids) (hn : n < 32) {op : GicOp}
    (h : Live config ids c n g) (hkeep : g.KeepsTargets op) (hnot : ¬ g.Completes op c n) :
    wp (Gic.step op) (fun _ => Live config ids c n) (fun _ _ => True) g := by
  have harmed := h.armed
  obtain ⟨hwrite, hline⟩ := hkeep c (harmed.cpus ▸ hc) n hn (Or.inl harmed.pending)
  have hround : ∀ {x : GicM Unit},
      wp x (fun _ => Armed config ids c n) (fun _ => Armed config ids c n) g →
      wp x (fun _ g' => Live config ids c n g'.combLogic) (fun _ _ => True) g := by
    intro x hx
    unfold wp at hx ⊢
    split at hx
    · exact hx.live hapart hc hn
    · trivial
  apply wp_step op (fun _ => trivial) fun _ _ => h
  · intro w hw
    have hprivate := hwrite w hw
    apply hround
    cases hregion : w.region with
    | dist => exact staysArmed_writeDist hapart hn hregion harmed hprivate
    | cpu => exact staysArmed_writeCpu hapart hn hw hregion harmed hprivate hnot
    | vCpu => exact staysArmed_writeVCpu hapart hn hw hregion harmed hprivate hnot
    | vDist => exact staysArmed_writeVDist hapart hn hregion harmed hprivate
  · intro val irqIdx hop
    exact hround (staysArmed_raiseLine hapart hn harmed hc (hline val irqIdx hop))

/-! ## How an interrupt becomes armed -/

/-- A software interrupt arms its number for the CPUs it is sent to. -/
theorem armed_generateSgi (hconfig : g.config = config) (hcpus : g.cpus = ids) {value : Word} {cpuId : ℕ}
    (hnum : sgiNumber value = n) (hbit : (sgiTargets value cpuId).getLsbD c) (hlen : c < ids.length) :
    wp (generateSgi value cpuId) (fun _ => Armed config ids c n) (fun _ _ => True) g := by
  have hlt := sgiNumber_lt value
  have hindex : sgiNumber value / 32 < nGicInterrupts / 32 := by
    unfold nGicInterrupts
    omega
  apply wp.step
  rw [wp_modify]
  apply wp.step
  rw [wp_get]
  -- until the loop reaches the CPU the byte is set and the bit may be clear
  refine wp_forM_of (fun rest (g' : Gic) => (g'.config = config ∧ g'.cpus = ids ∧ g'.cpuInTarget n c = true) ∧
    (c ∈ rest ∨ g'.Pending c n)) ⟨⟨hconfig, hcpus, ?_⟩, Or.inl ?_⟩ ?_ ?_
  · rw [hnum, cpuInTarget_setInterruptTarget]
    exact hbit
  · rw [List.mem_range]
    change c < g.cpus.length
    rw [hcpus]
    exact hlen
  · intro cpuT rest g' h'
    obtain ⟨⟨h1, h2, h3⟩, h4⟩ := h'
    split
    · apply wp.step
      rw [wp_modify, wp_setInterruptPending, if_pos hindex]
      refine ⟨⟨h1, h2, h3⟩, ?_⟩
      rw [pending_putPending, hnum]
      by_cases hcpu : c = cpuT
      · exact Or.inr (Or.inl ⟨hcpu, rfl, by decide⟩)
      · rcases h4 with hmem | hpend
        · exact Or.inl ((List.mem_cons.mp hmem).resolve_left hcpu)
        · exact Or.inr (Or.inr ⟨fun h => hcpu h.1, hpend⟩)
    · rename_i hno
      refine ⟨⟨h1, h2, h3⟩, h4.imp_left fun hmem => ?_⟩
      rcases List.mem_cons.mp hmem with rfl | hmem
      · exact absurd hbit hno
      · exact hmem
  · intro g' h'
    obtain ⟨⟨h1, h2, h3⟩, h4⟩ := h'
    exact ⟨h1, h2, h3, h4.resolve_left List.not_mem_nil⟩

/-- A raised line arms its number for the CPUs it is sent to. -/
theorem armed_raiseLine (hconfig : g.config = config) (hcpus : g.cpus = ids) {val : BitVec 64} {irqIdx : Word}
    (hirq : actualIrq irqIdx = n) (hlow : 16 ≤ n) (hhigh : n < 32) (hc : c ∈ ids) (hbit : (irqIdx >>> 16).getLsbD c)
    (hbyte : ((irqIdx >>> 16).setWidth 8).getLsbD c) (hval : val.setWidth 32 ≠ 0#32) :
    wp (raiseLine val irqIdx) (fun _ => Armed config ids c n) (fun _ _ => True) g := by
  have hindex : actualIrq irqIdx / 32 < nGicInterrupts / 32 := by
    unfold nGicInterrupts
    omega
  apply wp.step
  rw [wp_get, if_neg (by omega), if_pos (by omega)]
  refine wp_forM_of (fun rest (g' : Gic) => (g'.config = config ∧ g'.cpus = ids) ∧
    (c ∈ rest ∨ Armed config ids c n g')) ⟨⟨hconfig, hcpus⟩, Or.inl (hcpus ▸ hc)⟩ ?_ ?_
  · intro cpu rest g' h'
    obtain ⟨⟨h1, h2⟩, h3⟩ := h'
    split
    · apply wp.step
      rw [wp_modify, wp_setInterruptPending, if_pos hindex]
      refine ⟨⟨h1, h2⟩, ?_⟩
      have htarget : (g'.setInterruptTarget (actualIrq irqIdx) ((irqIdx >>> 16).setWidth 8)).cpuInTarget n c = true := by
        rw [hirq, cpuInTarget_setInterruptTarget]
        exact hbyte
      by_cases hcpu : c = cpu
      · refine Or.inr ⟨h1, h2, htarget, ?_⟩
        rw [pending_putPending]
        exact Or.inl ⟨hcpu, hirq.symm, hval⟩
      · rcases h3 with hmem | harmed
        · exact Or.inl ((List.mem_cons.mp hmem).resolve_left hcpu)
        · refine Or.inr ⟨h1, h2, htarget, ?_⟩
          rw [pending_putPending]
          exact Or.inr ⟨fun h => hcpu h.1, harmed.pending⟩
    · rename_i hno
      refine ⟨⟨h1, h2⟩, h3.imp_left fun hmem => ?_⟩
      rcases List.mem_cons.mp hmem with rfl | hmem
      · exact absurd hbit hno
      · exact hmem
  · intro g' h'
    exact h'.2.resolve_left List.not_mem_nil

/-- The operation that makes a private interrupt pending makes it live. -/
theorem live_of_makesPending (hapart : AckApart config ids) (hc : c ∈ ids) (hn : n < 32) {op : GicOp}
    (hconfig : g.config = config) (hcpus : g.cpus = ids) (hkeep : g.KeepsTargets op) (hmakes : g.MakesPending op c n) :
    wp (Gic.step op) (fun _ => Live config ids c n) (fun _ _ => True) g := by
  have hround : ∀ {x : GicM Unit}, wp x (fun _ => Armed config ids c n) (fun _ _ => True) g →
      wp x (fun _ g' => Live config ids c n g'.combLogic) (fun _ _ => True) g :=
    fun hx => hx.mono fun _ g' h' => h'.live hapart hc hn
  rcases hmakes with ⟨w, hw, hregion, hoff, hnum, hbit, hlen⟩ | ⟨val, irqIdx, hop, hirq, hlow, hhigh, hbit, hval⟩
  · apply wp_step op (fun _ => trivial)
    · intro hnone
      rw [hw] at hnone
      cases hnone
    · intro w' hw'
      cases hw.symm.trans hw'
      apply hround
      rw [hregion]
      unfold writeRegion writeDist
      dsimp only
      rw [if_neg (by omega), if_neg (by omega), if_pos hoff]
      exact armed_generateSgi hconfig hcpus hnum hbit (hcpus ▸ hlen)
    · intro val irqIdx hop
      rw [hop] at hw
      cases hw
  · have hmakes : g.MakesPending op c n := Or.inr ⟨val, irqIdx, hop, hirq, hlow, hhigh, hbit, hval⟩
    have hline := (hkeep c (hcpus ▸ hc) n hn (Or.inr hmakes)).2 val irqIdx hop
    have hbyte := (hline hirq ⟨c, hcpus ▸ hc, hbit⟩).1
    apply wp_step op (fun _ => trivial)
    · intro _ hnot
      exact absurd hop (hnot val irqIdx)
    · intro w hw
      rw [hop] at hw
      cases hw
    · intro val' irqIdx' hop'
      rw [hop] at hop'
      cases hop'
      exact hround (armed_raiseLine hconfig hcpus hirq hlow hhigh hc hbit hbyte hval)

/-! ## Runs -/

/-- Once a private interrupt is made pending for a CPU, and until the CPU completes it, it is in
the queue of the CPU after every operation after which it can be delivered. -/
def NoLostPrivate (g : Gic) (ops : List GicOp) : Prop :=
  ∀ pre op mid post s s', ops = pre ++ op :: (mid ++ post) → runAll pre g = .ok () s →
    runAll (op :: mid) s = .ok () s' → ∀ c ∈ g.cpus, ∀ n < 32, s.MakesPending op c n →
      Along step (fun g op => ¬ g.Completes op c n) s (op :: mid) → s'.Delivered c n

/-- In every run whose operations keep the targets of the private interrupts that are pending, no
private interrupt is lost. -/
theorem noLostPrivate_of_keepsTargets (config : GicConfig) (mem : ByteMemory) (behind : ℕ → ℕ → Word)
    (stack : ℕ → BitVec 8) (ids : List ℕ) (ops : List GicOp) (hapart : AckApart config ids)
    (hcond : Along step KeepsTargets (start config mem behind stack ids) ops) :
    NoLostPrivate (start config mem behind stack ids) ops := by
  intro pre op mid post s s' hops hpre hrun c hc n hn hmakes hnot
  rw [(start_spec config mem behind stack ids).2.1] at hc
  have hs : EnabledBelow config ids s := enabledBelow_of_run hpre
  rw [hops] at hcond
  have hkeep : Along step KeepsTargets s (op :: mid) := (hcond.append hpre).left
  obtain ⟨s₁, hop, hmid⟩ := forM_cons_ok hrun
  have hlive : Live config ids c n s₁ :=
    (live_of_makesPending hapart hc hn hs.config hs.cpus hkeep.1 hmakes).of_ok hop
  have hall : wp (runAll mid) (fun _ => Live config ids c n) (fun _ _ => True) s₁ :=
    ((hkeep.2 s₁ hop).and (hnot.2 s₁ hop)).wp_forM
      (fun _ _ _ h hcond => h.step hapart hc hn hcond.1 hcond.2) hlive
  exact (hall.of_ok hmid).delivered

/-- The acknowledge words of the small controller are apart from the registers they should be
apart from. -/
theorem ackApart_small : AckApart (small [0, 1]).config [0, 1] := by
  constructor
  · intro c hc a hin
    change ¬ (0 ≤ a + 3 ∧ a < 0 + 0x1000)
    simp only [List.mem_cons, List.not_mem_nil, or_false] at hc
    change InBlock (4 * ((0x1000 + 0x100 * c + 0xC) / 4)) 4 a ∨ InBlock (4 * ((0x2000 + 0x100 * c + 0xC) / 4)) 4 a at hin
    unfold InBlock at hin
    omega
  · intro c hc d hd a hin
    change ¬ (0x1000 + 0x100 * d ≤ a + 3 ∧ a < 0x1000 + 0x100 * d + 8)
    simp only [List.mem_cons, List.not_mem_nil, or_false] at hc hd
    change InBlock (4 * ((0x1000 + 0x100 * c + 0xC) / 4)) 4 a ∨ InBlock (4 * ((0x2000 + 0x100 * c + 0xC) / 4)) 4 a at hin
    unfold InBlock at hin
    omega

/-- The distributor is switched on, and CPU 1 enables software interrupt 1 but not its interface. -/
def enableSgi : List GicOp := [.write (some 0) 0#64 1#32 4, .write (some 1) 0x100#64 2#32 4]

/-- Each CPU sends software interrupt 1 to both, and then CPU 1 opens its mask and switches its interface on. -/
def sgiToBoth : List GicOp :=
  enableSgi ++ [.write (some 0) 0xF00#64 0x30001#32 4, .write (some 1) 0xF00#64 0x30001#32 4,
    .write (some 1) 0x1004#64 0xf0#32 4, .write (some 1) 0x1000#64 1#32 4]

/-- CPU 1 gets the interrupt, with the CPU that sent it last. -/
theorem noLostPrivate_one_sgi : NoLostPrivate (small [0, 1]) sgiToBoth ∧
    (endState (runAll sgiToBoth (small [0, 1]))).cpuQueue 1 = [0x401#32] := by
  refine ⟨noLostPrivate_of_keepsTargets _ _ _ _ _ _ ackApart_small ?_, by decide +kernel⟩
  have hsgi : ∀ w ∈ sgiToBoth.filterMap (small [0, 1]).config.guestWrite, w.region = .dist → w.offset = 0xF00 →
      ∀ c ∈ [0, 1], (sgiTargets w.value w.id).getLsbD c = true := by
    decide +kernel
  have hplain : ∀ w ∈ sgiToBoth.filterMap (small [0, 1]).config.guestWrite, w.region = .dist → w.offset ≠ 0xF00 →
      w.offset + w.len ≤ 0x800 := by
    decide +kernel
  have hcpu : ∀ w ∈ sgiToBoth.filterMap (small [0, 1]).config.guestWrite, w.region ≠ .dist →
      w.region = .cpu ∧ isCompletion w.offset = false := by
    decide +kernel
  apply along_of_enabledBelow _ (enabledBelow_start _ _ _ _ _)
  intro g hg op hop c hc n hn _
  rw [hg.cpus] at hc
  constructor
  · intro w hw
    rw [hg.config] at hw
    have hmem := List.mem_filterMap.mpr ⟨op, hop, hw⟩
    refine ⟨fun hregion hoff _ => hsgi w hmem hregion hoff c hc, fun hregion hoff i hi heq => ?_, fun hregion => ?_,
      fun hregion => ?_⟩
    · have := hplain w hmem hregion hoff
      omega
    · obtain ⟨hcpu', hcompletion⟩ := hcpu w hmem hregion
      rw [hg.config]
      unfold GuestWrite.Stores targetAddr InBlock
      rw [hcpu']
      dsimp only
      rw [hcompletion, if_neg Bool.false_ne_true]
      omega
    · exact absurd ((hcpu w hmem (by rw [hregion]; decide)).1.symm.trans hregion) (by decide)
  · rintro val irqIdx rfl
    simp [sgiToBoth, enableSgi] at hop

/-- CPU 0 sends software interrupt 1 to CPU 1. -/
def sendSgi : GicOp := .write (some 0) 0xF00#64 0x20001#32 4

/-- CPU 1 sends the same number to CPU 0 and then switches its interface on. -/
def answerSgi : List GicOp := [.write (some 1) 0xF00#64 0x10001#32 4, .write (some 1) 0x1000#64 1#32 4]

/-- The answer takes CPU 1 out of the target byte, so it never sees the interrupt sent to it. -/
theorem sgi_lost : ¬ NoLostPrivate (small [0, 1]) (enableSgi ++ sendSgi :: (answerSgi ++ [])) := by
  intro hall
  have hfirst : returns (runAll enableSgi (small [0, 1])) = true := by decide +kernel
  have hsecond : returns (runAll (enableSgi ++ sendSgi :: answerSgi) (small [0, 1])) = true := by
    decide +kernel
  have hfinal : let g := endState (runAll (enableSgi ++ sendSgi :: answerSgi) (small [0, 1]))
      g.isEnabled = true ∧ g.cpuTakesInterrupts 1 = true ∧ findEntry 1 (g.enableStatus 1) = some true ∧
        (¬ g.getInterruptPriority 1 > g.getCpuPriorityMask 1) ∧ g.cpuQueue 1 = [] := by
    decide +kernel
  cases hrun : runAll enableSgi (small [0, 1]) with
  | error e s =>
    rw [hrun] at hfirst
    cases hfirst
  | ok u s =>
    have hsplit : runAll (enableSgi ++ sendSgi :: answerSgi) (small [0, 1]) = runAll (sendSgi :: answerSgi) s :=
      forM_append_of_ok hrun
    rw [hsplit] at hsecond hfinal
    cases hrun' : runAll (sendSgi :: answerSgi) s with
    | error e s' =>
      rw [hrun'] at hsecond
      cases hsecond
    | ok u' s' =>
      rw [hrun'] at hfinal
      obtain ⟨hen, htakes, hstatus, hprio, hqueue⟩ := hfinal
      have hs : EnabledBelow (small [0, 1]).config [0, 1] s := enabledBelow_of_run hrun
      have hmakes : s.MakesPending sendSgi 1 1 := by
        refine Or.inl ⟨⟨.dist, 0xF00, 0x20001#32, 4, 0⟩, ?_, rfl, rfl, by decide, by decide, ?_⟩
        · rw [hs.config]
          decide +kernel
        · rw [hs.cpus]
          decide
      have hnot : Along step (fun g op => ¬ g.Completes op 1 1) s (sendSgi :: answerSgi) := by
        apply along_of_enabledBelow _ hs
        rintro g hg op hop ⟨w, hw, -, hcomplete, -⟩
        rw [hg.config] at hw
        simp only [answerSgi, sendSgi, List.mem_cons, List.not_mem_nil, or_false] at hop
        rcases hop with rfl | rfl | rfl
        · cases hw
          exact absurd hcomplete (by decide)
        · cases hw
          exact absurd hcomplete (by decide)
        · cases hw
          exact absurd hcomplete (by decide)
      obtain ⟨v, hv, -⟩ := hall enableSgi sendSgi answerSgi [] s s' rfl hrun hrun' 1 (by decide +kernel) 1 (by decide)
        hmakes hnot ⟨hen, htakes, hstatus, hprio⟩
      change v ∈ s'.cpuQueue 1 at hv
      rw [show s'.cpuQueue 1 = [] from hqueue] at hv
      cases hv

end Gic

end Vpsim.Peripherals
