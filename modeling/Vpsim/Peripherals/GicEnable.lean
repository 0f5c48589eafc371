import Vpsim.Peripherals.GicKeeps

/-!
# Disabling an interrupt

A disable write should stop the delivery of the interrupts it names until they are enabled
again. The handler computes their numbers from the base of the enable registers, so it clears
entries 1024 above the ones it should, and an interrupt that was enabled stays so. Only a
disable write that finds its interrupts disabled already has the effect it should have.
-/

namespace Vpsim.Peripherals

open Vpsim.Lib

namespace Gic

variable {g g' g'' : Gic}

/-! ## Code that does not touch the maps -/

/-- The maps of enabled interrupts stay, and what is queued was enabled. -/
structure Steady (g g' : Gic) : Prop where
  config : g'.config = g.config
  cpus : g'.cpus = g.cpus
  enableStatus : g'.enableStatus = g.enableStatus
  log : ∃ new, g'.log = new ++ g.log ∧ ∀ c v, Event.queued c v ∈ new →
    ∃ n, findEntry n (g.enableStatus c) = some true ∧ (n < 1024 → interruptId v = n)

/-- A change outside the maps and the log. -/
theorem Steady.of_eq (hc : g'.config = g.config) (hcpus : g'.cpus = g.cpus)
    (he : g'.enableStatus = g.enableStatus) (hl : g'.log = g.log) : Steady g g' :=
  ⟨hc, hcpus, he, [], hl, by simp⟩

/-- A change outside the maps that queues nothing is steady. -/
theorem Steady.of_log (hc : g'.config = g.config) (hcpus : g'.cpus = g.cpus) (he : g'.enableStatus = g.enableStatus)
    (new : List Event) (hl : g'.log = new ++ g.log) (hnew : ∀ c v, Event.queued c v ∉ new) : Steady g g' :=
  ⟨hc, hcpus, he, new, hl, fun c v hv => absurd hv (hnew c v)⟩

theorem Steady.trans (h : Steady g g') (h' : Steady g' g'') : Steady g g'' := by
  obtain ⟨hc, hcpus, he, new, hl, hnew⟩ := h
  obtain ⟨hc', hcpus', he', new', hl', hnew'⟩ := h'
  refine ⟨hc'.trans hc, hcpus'.trans hcpus, he'.trans he, new' ++ new, by rw [hl', hl, List.append_assoc], ?_⟩
  intro c v hv
  rcases List.mem_append.mp hv with hv | hv
  · rw [← he]
    exact hnew' c v hv
  · exact hnew c v hv

instance : IsPreorder Gic Steady where
  refl _ := Steady.of_eq rfl rfl rfl rfl
  trans _ _ _ := Steady.trans

theorem Serves.steady (h : Serves g g') : Steady g g' := by
  obtain ⟨new, hl, hnew⟩ := h.log
  refine ⟨h.config, h.cpus, h.enableStatus, new, hl, fun c v hv => ?_⟩
  obtain ⟨n, hn, rfl⟩ := hnew _ hv
  exact ⟨n, hn, interruptId_ackValue⟩

theorem steady_genMaint (g : Gic) (cpu : ℕ) : Steady g (g.genMaint cpu) := by
  have hserve := (serves_genMaint g cpu).steady
  split at hserve
  · exact hserve
  · exact (Steady.of_eq rfl rfl rfl rfl : Steady g (g.pushCpu cpu g.config.maintIrq)).trans hserve

theorem steady_record_index (g : Gic) (cpu i : ℕ) : Steady g (g.record (.index cpu i)) :=
  ⟨rfl, rfl, rfl, [_], rfl, by simp⟩

theorem steady_notifyEnd (g : Gic) (id : ℕ) (k : Fin 64) : Steady g (g.notifyEnd id k) := by
  unfold notifyEnd
  dsimp only
  refine Steady.trans ?_ (steady_genMaint _ id)
  exact Steady.of_eq rfl rfl rfl rfl

theorem steady_nextVirtual (g : Gic) (id : ℕ) : Steady g ((g.popVCpu id).nextVirtual id) := by
  unfold nextVirtual
  split
  · rename_i k rest hqueue
    exact Steady.of_log rfl rfl rfl [.lookup id k ((g.popVCpu id).getVIntEntry k)] rfl (by simp)
  · dsimp only
    split
    · refine Steady.trans ?_ (steady_genMaint _ id)
      exact Steady.of_eq rfl rfl rfl rfl
    · exact Steady.of_eq rfl rfl rfl rfl

theorem steady_listEntry (g : Gic) (which : Fin 64) (value : Word) (id : ℕ) :
    Steady g (g.listEntry which value id) := by
  unfold listEntry
  dsimp only
  split
  · exact Steady.of_eq rfl rfl rfl rfl
  · have hsearch : Steady g (g.lookupAll id) := Steady.of_log rfl rfl rfl _ rfl (by simp)
    split
    · exact hsearch
    · exact hsearch.trans (Steady.of_eq rfl rfl rfl rfl)

theorem steady_notifyEmpty (g : Gic) (id : ℕ) : Steady g (g.notifyEmpty id) := by
  unfold notifyEmpty
  split
  · refine Steady.trans ?_ (steady_genMaint _ id)
    exact Steady.of_eq rfl rfl rfl rfl
  · exact Steady.of_eq rfl rfl rfl rfl

/-- Only the distributor changes the maps. -/
theorem keeps_steady_writeRegion {region : Region} (hregion : region ≠ .dist) (offset : ℕ) (value : Word)
    (len id : ℕ) : Keeps Steady (writeRegion region offset value len id) := by
  cases region with
  | dist => exact absurd rfl hregion
  | cpu =>
    intro g
    apply wp_writeCpu
    · intro _ _
      exact keeps_completeInterrupt (fun g i => steady_record_index g id i) (fun _ => Steady.of_eq rfl rfl rfl rfl)
        (fun _ => Steady.of_eq rfl rfl rfl rfl) (fun _ _ => Steady.of_eq rfl rfl rfl rfl)
        (fun _ _ => Steady.of_eq rfl rfl rfl rfl) fun _ => Steady.of_eq rfl rfl rfl rfl
    · intro _
      exact Steady.of_eq rfl rfl rfl rfl
  | vCpu =>
    intro g
    apply wp_writeVCpu
    · intro _ _
      apply wp_completeVirtual
      · intro k rest _
        exact Steady.of_log rfl rfl rfl [.lookup id k (g.getVIntEntry k)] rfl (by simp)
      · intro k rest _ g'
        exact Steady.of_log rfl rfl rfl [.retired id k] rfl (by simp)
      · intro k rest _ _
        exact keeps_endEntry (fun g i => steady_record_index g id i) (fun _ _ => Steady.of_eq rfl rfl rfl rfl)
          (fun _ _ => Steady.of_eq rfl rfl rfl rfl) fun g => steady_notifyEnd g id k
      · intro g
        exact steady_nextVirtual g id
    · intro _
      exact Steady.of_eq rfl rfl rfl rfl
  | vDist =>
    intro g
    exact wp_writeVDist (fun _ => steady_listEntry g _ value id) (fun _ g => steady_notifyEmpty g id)
      (fun _ => Steady.of_log rfl rfl rfl [.bankWrite id offset value] rfl (by simp))
      fun _ _ _ _ _ => Steady.of_eq rfl rfl rfl rfl

theorem keeps_steady_generateSgi (value : Word) (cpuId : ℕ) :
    Keeps Steady (generateSgi value cpuId) :=
  keeps_generateSgi (fun _ => Steady.of_eq rfl rfl rfl rfl) fun _ _ _ => ⟨rfl, rfl, rfl, [_], rfl, by simp⟩

theorem keeps_steady_raiseLine (val : BitVec 64) (irqIdx : Word) :
    Keeps Steady (raiseLine val irqIdx) :=
  fun _ => wp_raiseLine steady_record_index (fun _ _ _ => Steady.of_eq rfl rfl rfl rfl)
    fun _ _ _ _ _ => Steady.of_eq rfl rfl rfl rfl

/-! ## Enable and disable writes -/

/-- Setting the entry of one CPU changes the status of this interrupt for this CPU only. -/
theorem findEntry_update (map : ℕ → List (ℕ × Bool)) (cpu interrupt c n : ℕ) (status : Bool) :
    findEntry n (Function.update map cpu (setEntry interrupt status (map cpu)) c) =
      if n = interrupt ∧ c = cpu then some status else findEntry n (map c) := by
  by_cases hc : c = cpu
  · subst hc
    rw [Function.update_self]
    by_cases hn : n = interrupt
    · subst hn
      rw [findEntry_setEntry_self, if_pos ⟨rfl, rfl⟩]
    · rw [findEntry_setEntry_of_ne hn, if_neg (fun h => hn h.1)]
  · rw [Function.update_of_ne hc, if_neg (fun h => hc h.2)]

/-- Setting the entries of several CPUs changes the status of this interrupt for these CPUs only. -/
theorem findEntry_foldl (cpus : List ℕ) (map : ℕ → List (ℕ × Bool)) (interrupt c n : ℕ) (status : Bool) :
    findEntry n (cpus.foldl
        (fun map cpu => Function.update map cpu (setEntry interrupt status (map cpu))) map c) =
      if n = interrupt ∧ c ∈ cpus then some status else findEntry n (map c) := by
  induction cpus generalizing map with
  | nil => simp
  | cons cpu cpus ih =>
    rw [List.foldl_cons, ih, findEntry_update]
    by_cases hn : n = interrupt
    · by_cases hmem : c ∈ cpus
      · simp [hn, hmem]
      · by_cases hc : c = cpu
        · simp [hn, hc]
        · simp [hn, hmem, hc]
    · simp [hn]

/-- Whether a write by `cpuId` that names `interrupt` is about its status for CPU `c`. -/
def Concerns (g : Gic) (cpuId interrupt c : ℕ) : Prop :=
  if interrupt > 31 then c ∈ g.cpus else c = cpuId

instance (g : Gic) (cpuId interrupt c : ℕ) : Decidable (g.Concerns cpuId interrupt c) := by
  unfold Concerns
  infer_instance

/-- `markEnable` changes the status of the interrupt for the CPUs that it concerns. -/
theorem findEntry_markEnable (g : Gic) (cpuId interrupt : ℕ) (status : Bool) (c n : ℕ) :
    findEntry n ((g.markEnable cpuId interrupt status).enableStatus c) =
      if n = interrupt ∧ g.Concerns cpuId interrupt c then some status
      else findEntry n (g.enableStatus c) := by
  unfold markEnable Concerns
  dsimp only
  split
  · exact findEntry_foldl g.cpus g.enableStatus interrupt c n status
  · exact findEntry_update g.enableStatus cpuId interrupt c n status

/-- `markEnable` changes the maps only. -/
theorem markEnable_eq (g : Gic) (cpuId interrupt : ℕ) (status : Bool) :
    g.markEnable cpuId interrupt status =
      { g with enableStatus := (g.markEnable cpuId interrupt status).enableStatus } := by
  unfold markEnable
  dsimp only
  split
  · rfl
  · rfl

/-- Bit `i` of a write by `cpuId` sets the status of interrupt `n` for CPU `c`. -/
def Names (g : Gic) (cpuId offset : ℕ) (value : Word) (c n i : ℕ) : Prop :=
  value.getLsbD i ∧ namedInterrupt offset i = n ∧ g.Concerns cpuId n c

/-- The loop over some bits of a write changes the maps only, at the interrupts it names. -/
theorem markLoop_spec (g : Gic) (cpuId offset : ℕ) (value : Word) (status : Bool) (bits : List ℕ) :
    ∃ map, bits.foldl (fun g i =>
        if value.getLsbD i then g.markEnable cpuId (namedInterrupt offset i) status else g) g =
      { g with enableStatus := map } ∧
      ∀ c n, ((∃ i ∈ bits, g.Names cpuId offset value c n i) ∧ findEntry n (map c) = some status) ∨
        ((¬ ∃ i ∈ bits, g.Names cpuId offset value c n i) ∧
          findEntry n (map c) = findEntry n (g.enableStatus c)) := by
  induction bits generalizing g with
  | nil => exact ⟨g.enableStatus, rfl, by simp⟩
  | cons i bits ih =>
    rw [List.foldl_cons]
    split
    · rename_i hbit
      obtain ⟨map, heq, hmap⟩ := ih (g.markEnable cpuId (namedInterrupt offset i) status)
      rw [markEnable_eq] at heq hmap
      refine ⟨map, ?_, fun c n => ?_⟩
      · rw [markEnable_eq]
        exact heq
      · rcases hmap c n with ⟨⟨j, hj, hnames⟩, hfind⟩ | ⟨hno, hfind⟩
        · exact Or.inl ⟨⟨j, List.mem_cons_of_mem _ hj, hnames⟩, hfind⟩
        · rw [findEntry_markEnable] at hfind
          by_cases hi : n = namedInterrupt offset i ∧ g.Concerns cpuId (namedInterrupt offset i) c
          · rw [if_pos hi] at hfind
            obtain ⟨rfl, hcon⟩ := hi
            exact Or.inl ⟨⟨i, List.mem_cons_self, hbit, rfl, hcon⟩, hfind⟩
          · rw [if_neg hi] at hfind
            refine Or.inr ⟨?_, hfind⟩
            rintro ⟨j, hj, hnames⟩
            rcases List.mem_cons.mp hj with rfl | hj
            · obtain ⟨-, rfl, hcon⟩ := hnames
              exact hi ⟨rfl, hcon⟩
            · exact hno ⟨j, hj, hnames⟩
    · rename_i hbit
      obtain ⟨map, heq, hmap⟩ := ih g
      refine ⟨map, heq, fun c n => ?_⟩
      have hiff : (∃ j ∈ i :: bits, g.Names cpuId offset value c n j) ↔
          ∃ j ∈ bits, g.Names cpuId offset value c n j := by
        constructor
        · rintro ⟨j, hj, hnames⟩
          rcases List.mem_cons.mp hj with rfl | hj
          · exact absurd hnames.1 hbit
          · exact ⟨j, hj, hnames⟩
        · rintro ⟨j, hj, hnames⟩
          exact ⟨j, List.mem_cons_of_mem _ hj, hnames⟩
      rw [hiff]
      exact hmap c n

/-- A write marks the interrupts it names, and changes nothing else. -/
theorem markBits_spec (g : Gic) (cpuId offset : ℕ) (value : Word) (status : Bool) :
    ∃ map, g.markBits cpuId offset value status = { g with enableStatus := map } ∧
      ∀ c n, ((∃ i < 32, g.Names cpuId offset value c n i) ∧ findEntry n (map c) = some status) ∨
        ((¬ ∃ i < 32, g.Names cpuId offset value c n i) ∧
          findEntry n (map c) = findEntry n (g.enableStatus c)) := by
  unfold markBits
  simpa only [List.mem_range] using markLoop_spec g cpuId offset value status (List.range 32)

/-- An enable write changes the maps where it names an interrupt, and the enable registers. -/
theorem enableBits_spec (g : Gic) {offset : ℕ} (hlow : 0x100 ≤ offset) (hhigh : offset ≤ 0x17C)
    (value : Word) (cpuId : ℕ) :
    ∃ mem map, g.enableBits offset value cpuId = { g with mem := mem, enableStatus := map } ∧
      (∀ a, a < g.config.distBase + 0x100 ∨ g.config.distBase + 0x200 ≤ a → mem a = g.mem a) ∧
      ∀ c n, ((∃ i < 32, g.Names cpuId offset value c n i) ∧ findEntry n (map c) = some true) ∨
        ((¬ ∃ i < 32, g.Names cpuId offset value c n i) ∧
          findEntry n (map c) = findEntry n (g.enableStatus c)) := by
  obtain ⟨map, heq, hmap⟩ := markBits_spec (g.enableRegister offset value) cpuId offset value true
  refine ⟨(g.enableRegister offset value).mem, map, heq, fun a ha => ?_, hmap⟩
  exact storeWord_frame (by omega)

/-- A disable write changes the maps where it names an interrupt, and the enable and disable
registers. -/
theorem disableBits_spec (g : Gic) {offset : ℕ} (hlow : 0x180 ≤ offset) (hhigh : offset ≤ 0x1FC)
    (value : Word) (cpuId : ℕ) :
    ∃ mem map, g.disableBits offset value cpuId = { g with mem := mem, enableStatus := map } ∧
      (∀ a, a < g.config.distBase + 0x100 ∨ g.config.distBase + 0x200 ≤ a → mem a = g.mem a) ∧
      ∀ c n, ((∃ i < 32, g.Names cpuId offset value c n i) ∧ findEntry n (map c) = some false) ∨
        ((¬ ∃ i < 32, g.Names cpuId offset value c n i) ∧
          findEntry n (map c) = findEntry n (g.enableStatus c)) := by
  obtain ⟨map, heq, hmap⟩ := markBits_spec (g.disableRegisters offset value) cpuId offset value false
  have hcpus : (g.disableRegisters offset value).cpus = g.cpus := by
    rw [disableRegisters, enableRegister, putWord, putWord]
  have hstatus : (g.disableRegisters offset value).enableStatus = g.enableStatus := by
    rw [disableRegisters, enableRegister, putWord, putWord]
  simp only [Names, Concerns, hcpus, hstatus] at hmap
  refine ⟨(g.disableRegisters offset value).mem, map, ?_, fun a ha => ?_, hmap⟩
  · rw [disableBits, heq, disableRegisters, enableRegister, putWord, putWord]
  · simp only [disableRegisters, enableRegister, putWord]
    rw [storeWord_frame (by omega), storeWord_frame (by omega)]

/-- A property of the maps and the log that survives everything but enable and disable writes
survives a guest write if it survives those. -/
theorem wp_writeRegion_status {P : Gic → Prop} (hsteady : ∀ g g', P g → Steady g g' → P g') (hP : P g)
    (w : GuestWrite)
    (henable : w.region = .dist → 0x100 ≤ w.offset → w.offset ≤ 0x17C → P (g.enableBits w.offset w.value w.id))
    (hdisable : w.region = .dist → 0x180 ≤ w.offset → w.offset ≤ 0x1FC →
      P (g.disableBits w.offset w.value w.id)) :
    wp (writeRegion w.region w.offset w.value w.len w.id) (fun _ => P) (fun _ => P) g := by
  have hkeeps : ∀ {x : GicM Unit}, Keeps Steady x → wp x (fun _ => P) (fun _ => P) g := fun hx =>
    (hx g).imp (fun _ g' h' => hsteady g g' hP h') fun _ g' h' => hsteady g g' hP h'
  by_cases hregion : w.region = .dist
  · rw [hregion]
    unfold writeRegion writeDist
    dsimp only
    split
    · rename_i hoff
      rw [wp_modify]
      exact henable hregion hoff.1 hoff.2
    · split
      · rename_i hoff
        rw [wp_modify]
        exact hdisable hregion hoff.1 hoff.2
      · split
        · exact hkeeps (keeps_steady_generateSgi _ _)
        · exact hkeeps (Keeps.modify fun _ => Steady.of_eq rfl rfl rfl rfl)
  · exact hkeeps (keeps_steady_writeRegion hregion _ _ _ _)

/-- An operation keeps a property of the maps that steady changes and the two writes to enable bits keep.
-/
theorem wp_step_status {P : Gic → Prop} (hsteady : ∀ g g', P g → Steady g g' → P g') (hP : P g) (op : GicOp)
    (henable : ∀ w, g.config.guestWrite op = some w → w.region = .dist → 0x100 ≤ w.offset →
      w.offset ≤ 0x17C → P (g.enableBits w.offset w.value w.id))
    (hdisable : ∀ w, g.config.guestWrite op = some w → w.region = .dist → 0x180 ≤ w.offset →
      w.offset ≤ 0x1FC → P (g.disableBits w.offset w.value w.id)) :
    wp (step op) (fun _ => P) (fun _ => P) g := by
  have hround : ∀ g', P g' → P g'.combLogic := fun g' h' => hsteady _ _ h' (serves_combLogic g').steady
  apply wp_step op (fun _ => hP) fun _ _ => hP
  · intro w hw
    exact (wp_writeRegion_status hsteady hP w (henable w hw) (hdisable w hw)).mono fun _ => hround
  · intro val irqIdx _
    exact (keeps_steady_raiseLine val irqIdx g).imp (fun _ g' h' => hround g' (hsteady g g' hP h'))
      fun _ g' h' => hsteady g g' hP h'

/-- The maps enable no interrupt from 1024 on. -/
structure EnabledBelow (config : GicConfig) (ids : List ℕ) (g : Gic) : Prop where
  config : g.config = config
  cpus : g.cpus = ids
  below : ∀ c n, findEntry n (g.enableStatus c) = some true → n < 1024

theorem EnabledBelow.of_steady {config : GicConfig} {ids : List ℕ} (h : EnabledBelow config ids g) (hs : Steady g g') :
    EnabledBelow config ids g' := by
  refine ⟨hs.config.trans h.config, hs.cpus.trans h.cpus, fun c n hn => h.below c n ?_⟩
  rw [← hs.enableStatus]
  exact hn

theorem EnabledBelow.enable {config : GicConfig} {ids : List ℕ} (h : EnabledBelow config ids g) {offset : ℕ} (hlow : 0x100 ≤ offset)
    (hhigh : offset ≤ 0x17C) (value : Word) (cpuId : ℕ) : EnabledBelow config ids (g.enableBits offset value cpuId) := by
  obtain ⟨mem, map, heq, -, hmap⟩ := enableBits_spec g hlow hhigh value cpuId
  rw [heq]
  refine ⟨h.config, h.cpus, fun c n hn => ?_⟩
  rcases hmap c n with ⟨⟨i, hi, -, hname, -⟩, -⟩ | ⟨-, hfind⟩
  · unfold namedInterrupt at hname
    omega
  · exact h.below c n (hfind ▸ hn)

theorem EnabledBelow.disable {config : GicConfig} {ids : List ℕ} (h : EnabledBelow config ids g) {offset : ℕ} (hlow : 0x180 ≤ offset)
    (hhigh : offset ≤ 0x1FC) (value : Word) (cpuId : ℕ) :
    EnabledBelow config ids (g.disableBits offset value cpuId) := by
  obtain ⟨mem, map, heq, -, hmap⟩ := disableBits_spec g hlow hhigh value cpuId
  rw [heq]
  refine ⟨h.config, h.cpus, fun c n hn => ?_⟩
  rcases hmap c n with ⟨-, hfind⟩ | ⟨-, hfind⟩
  · exact absurd (hfind.symm.trans hn) (by decide)
  · exact h.below c n (hfind ▸ hn)

theorem EnabledBelow.step {config : GicConfig} {ids : List ℕ} (h : EnabledBelow config ids g) (op : GicOp) :
    wp (Gic.step op) (fun _ => EnabledBelow config ids) (fun _ => EnabledBelow config ids) g :=
  wp_step_status (fun _ _ => EnabledBelow.of_steady) h op
    (fun w _ _ hlow hhigh => h.enable hlow hhigh w.value w.id)
    fun w _ _ hlow hhigh => h.disable hlow hhigh w.value w.id

/-- Nothing is enabled, queued or logged when the CPUs are connected. -/
theorem start_spec (config : GicConfig) (mem : ByteMemory) (behind : ℕ → ℕ → Word) (stack : ℕ → BitVec 8)
    (ids : List ℕ) :
    let g := start config mem behind stack ids
    g.config = config ∧ g.cpus = ids ∧ g.log = [] ∧ (∀ c, g.enableStatus c = []) ∧ (∀ c, g.cpuQueue c = []) ∧
      (∀ c, g.vCpuQueue c = []) := by
  induction ids using List.reverseRecOn with
  | nil => exact ⟨rfl, rfl, rfl, fun _ => rfl, fun _ => rfl, fun _ => rfl⟩
  | append_singleton ids id ih =>
    obtain ⟨hconfig, hcpus, hlog, hstatus, hqueue, hvqueue⟩ := ih
    simp only [start, List.foldl_append, List.foldl_cons, List.foldl_nil, connectCpu] at *
    refine ⟨hconfig, by rw [hcpus], hlog, ?_, ?_, ?_⟩
    · intro c
      by_cases hc : c = (List.foldl connectCpu (built config mem behind stack) ids).cpus.length
      · rw [hc, Function.update_self]
      · rw [Function.update_of_ne hc, hstatus]
    · intro c
      by_cases hc : c = (List.foldl connectCpu (built config mem behind stack) ids).cpus.length
      · rw [hc, Function.update_self]
      · rw [Function.update_of_ne hc, hqueue]
    · intro c
      by_cases hc : c = (List.foldl connectCpu (built config mem behind stack) ids).cpus.length
      · rw [hc, Function.update_self]
      · rw [Function.update_of_ne hc, hvqueue]

theorem enabledBelow_start (config : GicConfig) (mem : ByteMemory) (behind : ℕ → ℕ → Word) (stack : ℕ → BitVec 8)
    (ids : List ℕ) : EnabledBelow config ids (start config mem behind stack ids) := by
  obtain ⟨hconfig, hcpus, -, hstatus, -, -⟩ := start_spec config mem behind stack ids
  refine ⟨hconfig, hcpus, fun c n h => ?_⟩
  rw [hstatus] at h
  cases h

/-- The attributes, the CPUs and the bound on enabled interrupts in every state a run reaches. -/
theorem enabledBelow_of_run {config : GicConfig} {mem : ByteMemory} {behind : ℕ → ℕ → Word} {stack : ℕ → BitVec 8}
    {ids : List ℕ} {ops : List GicOp} {s : Gic} (h : runAll ops (start config mem behind stack ids) = .ok () s) :
    EnabledBelow config ids s := by
  have hrun : wp (runAll ops) (fun _ => EnabledBelow config ids) (fun _ => EnabledBelow config ids) _ :=
    wp_forM_mem (fun _ op _ h => h.step op) (enabledBelow_start config mem behind stack ids)
  exact hrun.of_ok h

/-- A condition that holds in every state with the given attributes and CPUs holds along a run. -/
theorem along_of_enabledBelow {config : GicConfig} {ids : List ℕ} {cond : Gic → GicOp → Prop} {ops : List GicOp}
    (hcond : ∀ g, EnabledBelow config ids g → ∀ op ∈ ops, cond g op) (h : EnabledBelow config ids g) :
    Along Gic.step cond g ops :=
  .of_inv (EnabledBelow config ids) (fun _ op _ _ h hop => (h.step op).of_ok hop) (fun g op hop hg => hcond g hg op hop) h

/-! ## Silence after a disable write -/

/-- Since the log `old`, interrupt `n` was not queued for CPU `c`, for which it is not enabled. -/
structure Silent (config : GicConfig) (ids : List ℕ) (c n : ℕ) (old : List Event) (g : Gic) : Prop where
  below : EnabledBelow config ids g
  disabled : findEntry n (g.enableStatus c) ≠ some true
  log : ∃ new, g.log = new ++ old ∧ ∀ v, Event.queued c v ∈ new → interruptId v ≠ n

theorem Silent.of_steady {config : GicConfig} {ids : List ℕ} {c n : ℕ} {old : List Event} (h : Silent config ids c n old g)
    (hs : Steady g g') : Silent config ids c n old g' := by
  obtain ⟨new, hlog, hnew⟩ := h.log
  obtain ⟨new', hlog', hnew'⟩ := hs.log
  refine ⟨h.below.of_steady hs, by rw [hs.enableStatus]; exact h.disabled, new' ++ new, ?_, ?_⟩
  · rw [hlog', hlog, List.append_assoc]
  · intro v hv
    rcases List.mem_append.mp hv with hv | hv
    · obtain ⟨m, hm, hid⟩ := hnew' c v hv
      rw [hid (h.below.below c m hm)]
      intro hmn
      exact h.disabled (hmn ▸ hm)
    · exact hnew v hv

end Gic

/-- A 32-bit write to the disable register that has the bit of interrupt `n` set. -/
def GuestWrite.Disables (w : GuestWrite) (n : ℕ) : Prop :=
  w.region = .dist ∧ w.len = 4 ∧ w.offset = 0x180 + 4 * (n / 32) ∧ w.value.getLsbD (n % 32)

/-- A write to the enable registers that enables interrupt `n` for CPU `c`. -/
def GuestWrite.Enables (w : GuestWrite) (n c : ℕ) : Prop :=
  w.region = .dist ∧ 0x100 ≤ w.offset ∧ w.offset ≤ 0x17C ∧ (n ≤ 31 → c = w.id) ∧
    ∃ i < 32, w.value.getLsbD i ∧ Gic.namedInterrupt w.offset i = n

namespace Gic

theorem Silent.step {config : GicConfig} {ids : List ℕ} {c n : ℕ} {old : List Event} (h : Silent config ids c n old g) (op : GicOp)
    (hop : ∀ w, config.guestWrite op = some w → ¬ w.Enables n c) :
    wp (Gic.step op) (fun _ => Silent config ids c n old) (fun _ => Silent config ids c n old) g := by
  apply wp_step_status (fun _ _ => Silent.of_steady) h op
  · intro w hw hregion hlow hhigh
    have hbelow := h.below.enable hlow hhigh w.value w.id
    obtain ⟨mem, map, heq, -, hmap⟩ := enableBits_spec g hlow hhigh w.value w.id
    rw [heq] at hbelow ⊢
    refine ⟨hbelow, ?_, h.log⟩
    rcases hmap c n with ⟨⟨i, hi, hbit, hname, hcon⟩, -⟩ | ⟨-, hfind⟩
    · rw [h.below.config] at hw
      refine absurd ⟨hregion, hlow, hhigh, fun hn => ?_, i, hi, hbit, hname⟩ (hop w hw)
      rwa [Concerns, if_neg (by omega)] at hcon
    · rw [hfind]
      exact h.disabled
  · intro w hw hregion hlow hhigh
    have hbelow := h.below.disable hlow hhigh w.value w.id
    obtain ⟨mem, map, heq, -, hmap⟩ := disableBits_spec g hlow hhigh w.value w.id
    rw [heq] at hbelow ⊢
    refine ⟨hbelow, ?_, h.log⟩
    rcases hmap c n with ⟨-, hfind⟩ | ⟨-, hfind⟩
    · rw [hfind]
      decide
    · rw [hfind]
      exact h.disabled

/-! ## Runs -/

/-- After a 32-bit disable write that names an interrupt, the interrupt is not queued for the
CPUs the write is about until a later write enables it for them. -/
def RespectsDisable (g : Gic) (ops : List GicOp) : Prop :=
  ∀ pre op mid post s, ops = pre ++ op :: (mid ++ post) → runAll pre g = .ok () s →
    ∀ w n c, g.config.guestWrite op = some w → n < nGicInterrupts → w.Disables n → (n < 32 → c = w.id) →
      (∀ op' ∈ mid, ∀ w', g.config.guestWrite op' = some w' → ¬ w'.Enables n c) →
      let silent := fun g' : Gic => ∃ new, g'.log = new ++ s.log ∧
        ∀ v, Event.queued c v ∈ new → interruptId v ≠ n
      wp (runAll (op :: mid)) (fun _ => silent) (fun _ => silent) s

/-- A 32-bit disable write finds the interrupts it names disabled already. -/
def DisableFindsOff (g : Gic) (op : GicOp) : Prop :=
  ∀ w n c, g.config.guestWrite op = some w → n < nGicInterrupts → w.Disables n → (n < 32 → c = w.id) →
    findEntry n (g.enableStatus c) ≠ some true

/-- In every run in which each disable write finds its interrupts disabled already, a disabled
interrupt is not delivered until it is enabled again. -/
theorem respectsDisable_of_finds_off (config : GicConfig) (mem : ByteMemory) (behind : ℕ → ℕ → Word)
    (stack : ℕ → BitVec 8) (ids : List ℕ) (ops : List GicOp)
    (hcond : Along step DisableFindsOff (start config mem behind stack ids) ops) :
    RespectsDisable (start config mem behind stack ids) ops := by
  intro pre op mid post s hops hpre w n c hw hn hdis hc hmid
  have hbelow : EnabledBelow config ids s := enabledBelow_of_run hpre
  rw [(start_spec config mem behind stack ids).1] at hw hmid
  rw [hops] at hcond
  obtain ⟨hop, -⟩ := hcond.append hpre
  have hsilent : Silent config ids c n s.log s :=
    ⟨hbelow, hop w n c (by rw [hbelow.config]; exact hw) hn hdis hc, [], rfl, by simp⟩
  have hnot : ∀ op' ∈ op :: mid, ∀ w', config.guestWrite op' = some w' → ¬ w'.Enables n c := by
    intro op' hop' w' hw' hen
    rcases List.mem_cons.mp hop' with rfl | hop'
    · cases hw.symm.trans hw'
      have hdoff := hdis.2.2.1
      have hehigh := hen.2.2.1
      omega
    · exact hmid op' hop' w' hw' hen
  have hrun : wp (runAll (op :: mid)) (fun _ => Silent config ids c n s.log) (fun _ => Silent config ids c n s.log) s :=
    wp_forM_mem (fun _ op' hop' h => h.step op' (hnot op' hop')) hsilent
  intro silent
  unfold wp at hrun ⊢
  split at hrun
  · exact hrun.log
  · exact hrun.log

/-- The distributor and the interface of CPU 0 are switched on, and interrupt 33 is sent to CPU
0 and enabled. -/
def enable33 : List GicOp :=
  [.write (some 0) 0#64 1#32 4, .write (some 0) 0x1000#64 1#32 4,
   .write (some 0) 0x820#64 0x01010101#32 4, .write (some 0) 0x104#64 2#32 4]

/-- A disable write of interrupt 34, and the lines of both. -/
def disable34 : List GicOp :=
  [.write (some 0) 0x184#64 4#32 4, .updateIrq 1#64 33#32, .updateIrq 1#64 34#32]

/-- Interrupt 34 was never enabled and is not delivered, while interrupt 33 is. -/
theorem respectsDisable_never_enabled : RespectsDisable (small [0]) (enable33 ++ disable34) ∧
    .queued 0 33#32 ∈ (endState (runAll (enable33 ++ disable34) (small [0]))).log := by
  refine ⟨respectsDisable_of_finds_off _ _ _ _ _ _ ?_, by decide +kernel⟩
  have henable : ∀ w ∈ (enable33 ++ disable34).filterMap (small [0]).config.guestWrite, w.region = .dist →
      0x100 ≤ w.offset → w.offset ≤ 0x17C → ∀ i < 32, w.value.getLsbD i → namedInterrupt w.offset i ≠ 34 := by
    decide +kernel
  have hdisable : ∀ w ∈ (enable33 ++ disable34).filterMap (small [0]).config.guestWrite, ∀ n < nGicInterrupts,
      w.region = .dist → w.offset = 0x180 + 4 * (n / 32) → w.value.getLsbD (n % 32) → n = 34 := by
    decide +kernel
  obtain ⟨-, -, hlog, hstatus, -, -⟩ :=
    start_spec (small [0]).config (fun _ => 0#8) (fun _ _ => 0#32) (fun _ => 0#8) [0]
  refine .of_inv (fun g => ∀ c, Silent (small [0]).config [0] c 34 [] g) ?_ ?_ fun c =>
    ⟨enabledBelow_start .., ?_, [], hlog, nofun⟩
  · intro g op hop g' hg hrun c
    refine ((hg c).step op fun w hw hen => ?_).of_ok hrun
    obtain ⟨hregion, hlow, hhigh, -, i, hi, hbit, hname⟩ := hen
    exact henable w (List.mem_filterMap.mpr ⟨op, hop, hw⟩) hregion hlow hhigh i hi hbit hname
  · intro g op hop hg w n c hw hn hdis _
    rw [(hg c).below.config] at hw
    rw [hdisable w (List.mem_filterMap.mpr ⟨op, hop, hw⟩) n hn hdis.1 hdis.2.2.1 hdis.2.2.2]
    exact (hg c).disabled
  · exact fun h => nomatch (congrArg (findEntry 34) (hstatus c)).symm.trans h

/-- Interrupt 33 is disabled, and then its line is raised. -/
def disable33 : List GicOp := [.write (some 0) 0x184#64 2#32 4, .updateIrq 1#64 33#32]

/-- The disable write clears entry 1057, so interrupt 33 is still delivered. -/
theorem disabled_interrupt_queued : ¬ RespectsDisable (small [0]) (enable33 ++ disable33) := by
  intro hall
  have hlog : (endState (runAll (enable33 ++ disable33) (small [0]))).log =
      [.updateIrq 0 2 false, .updateIrq 0 0 true, .index 0 33, .queued 0 33#32, .index 0 1, .index 0 1,
        .updateIrq 0 2 false, .updateIrq 0 0 false, .index 0 33, .index 0 1] ++
      (endState (runAll enable33 (small [0]))).log := by
    decide +kernel
  have hpre : returns (runAll enable33 (small [0])) = true := by decide +kernel
  cases hrun : runAll enable33 (small [0]) with
  | error e s =>
    rw [hrun] at hpre
    cases hpre
  | ok u s =>
    have hnot := hall enable33 (.write (some 0) 0x184#64 2#32 4) [.updateIrq 1#64 33#32] [] s rfl hrun
      ⟨.dist, 0x184, 2#32, 4, 0⟩ 33 0 (by decide +kernel) (by decide) ⟨rfl, rfl, rfl, by decide⟩
      (by decide) (by
        intro op' hop' w' hw'
        rw [List.mem_singleton.mp hop'] at hw'
        cases hw')
    have hfinal : runAll (enable33 ++ disable33) (small [0]) = runAll disable33 s := forM_append_of_ok hrun
    rw [hfinal, hrun] at hlog
    obtain ⟨new, hnew, hqueued⟩ := hnot.endState
    have hlist := List.append_cancel_right (hnew.symm.trans hlog)
    refine hqueued 33#32 ?_ (by decide)
    rw [hlist]
    decide

end Gic

end Vpsim.Peripherals
