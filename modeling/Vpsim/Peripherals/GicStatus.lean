import Vpsim.Peripherals.GicFootprint

/-!
# The status of the list registers

A bit of the empty-list-register status should be clear exactly when the list register is in the
queue of its CPU. The bits are set and cleared through a pointer to bytes with a shift of up to
31, so only the first eight list registers of each word have a bit that changes; they are
initialised at another address; and a list register can be written again, or written as empty,
while it is still in the queue.
-/

namespace Vpsim.Peripherals

open Vpsim.Lib

/-- A byte of the status registers of a connected CPU. -/
def GicConfig.StatusByte (config : GicConfig) (ids : List ℕ) (a : ℕ) : Prop :=
  ∃ id ∈ ids, InBlock (config.bank id + 0x30) 8 a

namespace Gic

variable {g g' : Gic} {config : GicConfig} {ids : List ℕ}

/-- Bit `k` of the status that a CPU reads. -/
def statusBit (g : Gic) (id : ℕ) (k : Fin 64) : Bool :=
  (g.readVDist (0x30 + (k : ℕ) / 32 * 4) id).getLsbD ((k : ℕ) % 32)

/-- A status bit is clear exactly when the list register is in the queue. -/
def StatusTracks (g : Gic) : Prop :=
  ∀ id ∈ g.cpus, ∀ k, g.statusBit id k = false ↔ k ∈ g.vCpuQueue id

/-- The bit lies in one byte of the memory. -/
theorem statusBit_eq (g : Gic) (id : ℕ) (k : Fin 64) :
    g.statusBit id k =
      (g.mem (g.config.bank id + (0x30 + (k : ℕ) / 32 * 4) + (k : ℕ) % 32 / 8)).getLsbD ((k : ℕ) % 32 % 8) := by
  have hk := k.isLt
  unfold statusBit readVDist
  rw [if_neg (by omega), if_neg (by omega), getLsbD_loadWord (by omega), vDistBank]

/-! ## Setting and clearing a bit -/

/-- The shifted one, cut to a byte, has this bit only, and none when the shift is eight or more. -/
theorem getLsbD_byteShift (i j : ℕ) (hi : i < 8) : ((1#32 <<< j).setWidth 8).getLsbD i = decide (i = j) := by
  rw [BitVec.getLsbD_setWidth, getLsbD_oneShift (by omega)]
  simp [hi]

theorem getLsbD_byteMask (i j : ℕ) (hi : i < 8) : ((~~~(1#32 <<< j)).setWidth 8).getLsbD i = !decide (i = j) := by
  rw [BitVec.getLsbD_setWidth, BitVec.getLsbD_not, getLsbD_oneShift (by omega)]
  simp [hi, show i < 32 by omega]

/-- `|=` on a byte of the status sets the bit of the list register, if it is one of the eight of the
byte. -/
theorem statusBit_orByte (g : Gic) (id c : ℕ) (k j : Fin 64) :
    (g.orByte (g.vDistBank id + (0x30 + (k : ℕ) / 32 * 4)) ((k : ℕ) % 32)).statusBit c j =
      (g.statusBit c j || decide (c = id ∧ j = k ∧ (k : ℕ) % 32 < 8)) := by
  have hj := j.isLt
  have hk := k.isLt
  rw [statusBit_eq, statusBit_eq]
  change (storeByte g.mem (g.config.bank id + (0x30 + (k : ℕ) / 32 * 4)) _
    (g.config.bank c + (0x30 + (j : ℕ) / 32 * 4) + (j : ℕ) % 32 / 8)).getLsbD _ = _
  by_cases haddr : g.config.bank c + (0x30 + (j : ℕ) / 32 * 4) + (j : ℕ) % 32 / 8 =
      g.config.bank id + (0x30 + (k : ℕ) / 32 * 4)
  · rw [haddr, storeByte_self, BitVec.getLsbD_or, getLsbD_byteShift _ _ (by omega), vDistBank]
    congr 1
    unfold GicConfig.bank at haddr
    rw [decide_eq_decide, Fin.ext_iff]
    omega
  · rw [storeByte_frame haddr]
    have hnot : ¬ (c = id ∧ j = k ∧ (k : ℕ) % 32 < 8) := by
      rintro ⟨rfl, rfl, hlow⟩
      exact haddr (by omega)
    simp [hnot]

/-- `&= ~` on a byte of the status clears the bit of the list register, if it is one of the eight of the
byte. -/
theorem statusBit_andNotByte (g : Gic) (id c : ℕ) (k j : Fin 64) :
    (g.andNotByte (g.vDistBank id + (0x30 + (k : ℕ) / 32 * 4)) ((k : ℕ) % 32)).statusBit c j =
      (g.statusBit c j && !decide (c = id ∧ j = k ∧ (k : ℕ) % 32 < 8)) := by
  have hj := j.isLt
  have hk := k.isLt
  rw [statusBit_eq, statusBit_eq]
  change (storeByte g.mem (g.config.bank id + (0x30 + (k : ℕ) / 32 * 4)) _
    (g.config.bank c + (0x30 + (j : ℕ) / 32 * 4) + (j : ℕ) % 32 / 8)).getLsbD _ = _
  by_cases haddr : g.config.bank c + (0x30 + (j : ℕ) / 32 * 4) + (j : ℕ) % 32 / 8 =
      g.config.bank id + (0x30 + (k : ℕ) / 32 * 4)
  · rw [haddr, storeByte_self, BitVec.getLsbD_and, getLsbD_byteMask _ _ (by omega), vDistBank]
    congr 2
    unfold GicConfig.bank at haddr
    rw [decide_eq_decide, Fin.ext_iff]
    omega
  · rw [storeByte_frame haddr]
    have hnot : ¬ (c = id ∧ j = k ∧ (k : ℕ) % 32 < 8) := by
      rintro ⟨rfl, rfl, hlow⟩
      exact haddr (by omega)
    simp [hnot]

/-! ## Changes outside the status -/

/-- The queues and the status bytes stay. -/
def SameStatus (config : GicConfig) (ids : List ℕ) (g g' : Gic) : Prop :=
  g.config = config → g.cpus = ids → g'.config = config ∧ g'.cpus = ids ∧ g'.vCpuQueue = g.vCpuQueue ∧
    ∀ a, config.StatusByte ids a → g'.mem a = g.mem a

instance : IsPreorder Gic (SameStatus config ids) where
  refl _ hconfig hcpus := ⟨hconfig, hcpus, rfl, fun _ _ => rfl⟩
  trans _ _ _ h h' := by
    intro hconfig hcpus
    obtain ⟨hconfig₁, hcpus₁, hqueue₁, hmem₁⟩ := h hconfig hcpus
    obtain ⟨hconfig₂, hcpus₂, hqueue₂, hmem₂⟩ := h' hconfig₁ hcpus₁
    exact ⟨hconfig₂, hcpus₂, hqueue₂.trans hqueue₁, fun a ha => (hmem₂ a ha).trans (hmem₁ a ha)⟩

/-- A change of anything but the configuration, the CPUs and the virtual queues. -/
theorem SameStatus.of_mem (hc : g'.config = g.config) (hcpus : g'.cpus = g.cpus) (hqueue : g'.vCpuQueue = g.vCpuQueue)
    (hmem : g.config = config → ∀ a, config.StatusByte ids a → g'.mem a = g.mem a) : SameStatus config ids g g' :=
  fun hconfig hids => ⟨hc.trans hconfig, hcpus.trans hids, hqueue, hmem hconfig⟩

theorem Leaves.sameStatus (h : Leaves config (config.StatusByte ids) g g') : SameStatus config ids g g' := by
  intro hconfig hcpus
  have hun := h hconfig
  exact ⟨hun.config.trans hconfig, hun.cpus.trans hcpus, hun.vCpuQueue, hun.mem⟩

/-- The status bytes are apart from the type word of the distributor, from the acknowledge words and from
the target bytes of the private interrupts. -/
structure StatusApart (config : GicConfig) (ids : List ℕ) : Prop where
  type : ∀ a, config.StatusByte ids a → ¬ InBlock (4 * (config.distBase / 4 + 1)) 4 a
  ack : ∀ c ∈ ids, ∀ a, config.StatusByte ids a → ¬ InBlock (ackAddr config c) 4 a ∧ ¬ InBlock (vAckAddr config c) 4 a
  target : ∀ n < 32, ¬ config.StatusByte ids (config.distBase + 0x800 + n)

theorem Serves.sameStatus (h : Serves g g') (hlay : StatusApart config ids) : SameStatus config ids g g' := by
  intro hconfig hcpus
  have hconfig' := h.config.trans hconfig
  have hcpus' := h.cpus.trans hcpus
  refine ⟨hconfig', hcpus', h.vCpuQueue, fun a ha => h.mem a (Apart.quiet ?_)⟩
  intro c hc
  rw [hconfig']
  exact hlay.ack c (hcpus' ▸ hc) a ha

theorem sameStatus_genMaint (hlay : StatusApart config ids) (g : Gic) (cpu : ℕ) :
    SameStatus config ids g (g.genMaint cpu) := by
  have hserve := serves_genMaint g cpu
  split at hserve
  · exact hserve.sameStatus hlay
  · have hpush : SameStatus config ids g (g.pushCpu cpu g.config.maintIrq) := SameStatus.of_mem rfl rfl rfl fun _ _ _ => rfl
    exact trans_of (SameStatus config ids) hpush (hserve.sameStatus hlay)

/-- A byte of a bank outside the status leaves the status and the queues. -/
theorem sameStatus_bankByte (off : ℕ) (hoff : off < 0x30 ∨ 0x38 ≤ off ∧ off < 0x1000) (g : Gic) (id : ℕ) (b : BitVec 8) :
    SameStatus config ids g (g.putByte (g.vDistBank id + off) b) := by
  refine (leaves_putByte fun hc => ?_).sameStatus
  rintro ⟨c, -, hin⟩
  rw [vDistBank, hc] at hin
  unfold InBlock GicConfig.bank at hin
  omega

theorem sameStatus_notifyEnd (hlay : StatusApart config ids) (g : Gic) (id : ℕ) (k : Fin 64) :
    SameStatus config ids g (g.notifyEnd id k) := by
  have hk := k.isLt
  have hfirst : SameStatus config ids g (g.orByte (g.vDistBank id + 0x10) 0) :=
    sameStatus_bankByte _ (by omega) g id _
  unfold notifyEnd
  dsimp only
  generalize g.orByte (g.vDistBank id + 0x10) 0 = g₁ at hfirst
  have hsecond : SameStatus config ids g₁
      (g₁.orByte (g₁.vDistBank id + (0x20 + (k : ℕ) / 32 * 4)) ((k : ℕ) % 32)) :=
    sameStatus_bankByte _ (by omega) g₁ id _
  exact trans_of _ hfirst (trans_of _ hsecond (sameStatus_genMaint hlay _ id))

/-- The maintenance interrupt of an empty queue leaves the status and the queues. -/
theorem sameStatus_maintenance (hlay : StatusApart config ids) (g : Gic) (id : ℕ) :
    SameStatus config ids g ((g.orByte (g.vDistBank id + 0x10) 3).genMaint id) := by
  have hfirst : SameStatus config ids g (g.orByte (g.vDistBank id + 0x10) 3) :=
    sameStatus_bankByte _ (by omega) g id _
  exact trans_of _ hfirst (sameStatus_genMaint hlay _ id)

theorem sameStatus_notifyEmpty (hlay : StatusApart config ids) (g : Gic) (id : ℕ) :
    SameStatus config ids g (g.notifyEmpty id) := by
  unfold notifyEmpty
  split
  · exact sameStatus_maintenance hlay g id
  · exact refl_of _ g

/-- The virtual interface of a CPU is apart from the status bytes. -/
def VirtualApart (config : GicConfig) (ids : List ℕ) (id : ℕ) : Prop :=
  ∀ a, config.StatusByte ids a → ¬ InBlock (config.vCpuBase + id * 0x100) 0x10 a

theorem sameStatus_setVirtual {id : ℕ} (hapart : VirtualApart config ids id) (g : Gic) (value : Word) :
    SameStatus config ids g (g.setCurrentVirtualInterruptId id value) := by
  refine (leaves_putWord fun hc a ha => ?_).sameStatus
  have hout := hapart a ha
  rw [hc]
  unfold InBlock at hout ⊢
  omega

theorem sameStatus_nextVirtual (hlay : StatusApart config ids) {id : ℕ} (hapart : VirtualApart config ids id) (g : Gic) :
    SameStatus config ids g (g.nextVirtual id) := by
  unfold nextVirtual
  split
  · rename_i k rest _
    have hlookup : SameStatus config ids g (g.record (.lookup id k (g.getVIntEntry k))) :=
      SameStatus.of_mem rfl rfl rfl fun _ _ _ => rfl
    exact trans_of _ hlookup (sameStatus_setVirtual hapart _ _)
  · have hshow := sameStatus_setVirtual hapart g 1023#32
    dsimp only
    split
    · exact trans_of _ hshow (sameStatus_maintenance hlay _ id)
    · exact hshow

/-- What happens beside the virtual interface at the end of an entry leaves the status and the queues. -/
theorem keeps_sameStatus_endEntry (hlay : StatusApart config ids) (interrupt : ℕ) (vint : Word) (k : Fin 64) (id : ℕ) :
    Keeps (SameStatus config ids) (endEntry interrupt vint k id) := by
  apply keeps_endEntry
  · exact fun _ _ => SameStatus.of_mem rfl rfl rfl fun _ _ _ => rfl
  · exact fun _ _ => SameStatus.of_mem rfl rfl rfl fun _ _ _ => rfl
  · exact fun _ _ => SameStatus.of_mem rfl rfl rfl fun _ _ _ => rfl
  · exact fun g => sameStatus_notifyEnd hlay g id k

/-! ## The invariant -/

/-- The bits track the queues, the queues hold no list register twice, and only the list
registers whose bit can change. -/
structure Tracked (cfg : GicConfig) (ids : List ℕ) (g : Gic) : Prop where
  config : g.config = cfg
  cpus : g.cpus = ids
  bits : ∀ id ∈ ids, ∀ k, g.statusBit id k = false ↔ k ∈ g.vCpuQueue id
  low : ∀ id ∈ ids, ∀ k ∈ g.vCpuQueue id, (k : ℕ) % 32 < 8
  nodup : ∀ id ∈ ids, (g.vCpuQueue id).Nodup

/-- A change outside the status leaves its bits. -/
theorem SameStatus.statusBit (h : SameStatus config ids g g') (hconfig : g.config = config) (hcpus : g.cpus = ids)
    {id : ℕ} (hid : id ∈ ids) (k : Fin 64) : g'.statusBit id k = g.statusBit id k := by
  obtain ⟨hconfig', -, -, hmem⟩ := h hconfig hcpus
  have hk := k.isLt
  rw [statusBit_eq, statusBit_eq, hconfig, hconfig', hmem]
  refine ⟨id, hid, ?_⟩
  unfold InBlock
  omega

theorem Tracked.of_sameStatus (h : Tracked config ids g) (hs : SameStatus config ids g g') : Tracked config ids g' := by
  obtain ⟨hconfig, hcpus, hqueue, -⟩ := hs h.config h.cpus
  refine ⟨hconfig, hcpus, fun id hid k => ?_, ?_, ?_⟩
  · rw [hs.statusBit h.config h.cpus hid, hqueue]
    exact h.bits id hid k
  · rw [hqueue]
    exact h.low
  · rw [hqueue]
    exact h.nodup

/-- Beside the bit, the end of an entry changes the entry only. -/
theorem sameStatus_retireEntry (config : GicConfig) (ids : List ℕ) (g : Gic) (id : ℕ) (k : Fin 64) :
    SameStatus config ids (g.orByte (g.vDistBank id + (0x30 + (k : ℕ) / 32 * 4)) ((k : ℕ) % 32)) (g.retireEntry id k) := by
  have hk := k.isLt
  unfold Gic.retireEntry
  dsimp only
  rw [Nat.add_comm ((k : ℕ) / 32 * 4) 0x30]
  generalize g.orByte (g.vDistBank id + (0x30 + (k : ℕ) / 32 * 4)) ((k : ℕ) % 32) = g₁
  refine SameStatus.of_mem rfl rfl rfl ?_
  rintro hc a ⟨c, -, hin⟩
  refine storeWord_frame ?_
  rw [vDistBank, hc]
  unfold InBlock GicConfig.bank at hin
  unfold GicConfig.bank
  omega

/-- Taking the front of a queue on both sides leaves the status and the queues the same. -/
theorem SameStatus.popVCpu (h : SameStatus config ids g g') (id : ℕ) :
    SameStatus config ids (g.popVCpu id) (g'.popVCpu id) := by
  intro hconfig hcpus
  obtain ⟨hconfig', hcpus', hqueue, hmem⟩ := h hconfig hcpus
  refine ⟨hconfig', hcpus', ?_, hmem⟩
  unfold Gic.popVCpu
  rw [hqueue]

/-- The end of an entry sets its bit and takes it from the queue. -/
theorem Tracked.retire (h : Tracked config ids g) {id : ℕ} {k : Fin 64} {rest : List (Fin 64)}
    (hqueue : g.vCpuQueue id = k :: rest) :
    Tracked config ids ((g.orByte (g.vDistBank id + (0x30 + (k : ℕ) / 32 * 4)) ((k : ℕ) % 32)).popVCpu id) := by
  set g₁ := g.orByte (g.vDistBank id + (0x30 + (k : ℕ) / 32 * 4)) ((k : ℕ) % 32) with hg₁
  have hq : ∀ c, (g₁.popVCpu id).vCpuQueue c = if c = id then rest else g.vCpuQueue c := by
    intro c
    rw [popVCpu_vCpuQueue]
    change (if c = id then (g.vCpuQueue id).tail else g.vCpuQueue c) = _
    rw [hqueue, List.tail_cons]
  have hbit : ∀ c j, (g₁.popVCpu id).statusBit c j = (g.statusBit c j || decide (c = id ∧ j = k ∧ (k : ℕ) % 32 < 8)) :=
    fun c j => statusBit_orByte g id c k j
  refine ⟨h.config, h.cpus, fun c hc j => ?_, fun c hc j hj => ?_, fun c hc => ?_⟩
  · rw [hbit, hq]
    by_cases hid : c = id
    · subst hid
      have hlow : (k : ℕ) % 32 < 8 := h.low c hc k (by rw [hqueue]; exact List.mem_cons_self)
      have hnodup := h.nodup c hc
      rw [hqueue, List.nodup_cons] at hnodup
      have hbits := h.bits c hc j
      rw [hqueue, List.mem_cons] at hbits
      rw [if_pos rfl, Bool.or_eq_false_iff, hbits, decide_eq_false_iff_not]
      constructor
      · rintro ⟨rfl | hj, hne⟩
        · exact absurd ⟨rfl, rfl, hlow⟩ hne
        · exact hj
      · intro hj
        refine ⟨Or.inr hj, ?_⟩
        rintro ⟨-, rfl, -⟩
        exact hnodup.1 hj
    · have hnot : ¬ (c = id ∧ j = k ∧ (k : ℕ) % 32 < 8) := fun hall => hid hall.1
      rw [if_neg hid, decide_eq_false hnot, Bool.or_false]
      exact h.bits c hc j
  · rw [hq] at hj
    split at hj
    · rename_i hid
      subst hid
      exact h.low c hc j (by rw [hqueue]; exact List.mem_cons_of_mem _ hj)
    · exact h.low c hc j hj
  · rw [hq]
    split
    · rename_i hid
      subst hid
      have hnodup := h.nodup c hc
      rw [hqueue, List.nodup_cons] at hnodup
      exact hnodup.2
    · exact h.nodup c hc

/-- The completion of a virtual interrupt keeps the invariant. -/
theorem tracked_completeVirtual (hlay : StatusApart config ids) {id : ℕ} (hapart : VirtualApart config ids id)
    (h : Tracked config ids g) (value : Word) :
    wp (completeVirtual value id) (fun _ => Tracked config ids) (fun _ _ => True) g := by
  apply wp.step
  rw [wp_get]
  split
  · trivial
  · rename_i k rest hqueue
    have hk := k.isLt
    dsimp only
    apply wp.step
    rw [wp_modify]
    split
    · apply wp.step
      rw [wp_modify]
      -- the rest changes neither the status nor the queue until the front is taken
      have hretire := sameStatus_retireEntry config ids
        (g.record (.lookup id k (g.getVIntEntry k))) id k
      apply wp.step
      apply ((keeps_sameStatus_endEntry hlay _ _ k id).wp_of_rel hretire).imp
      · intro _ g₂ h₂
        rw [wp_modify]
        apply (h.retire hqueue).of_sameStatus
        exact trans_of _ (h₂.popVCpu id) (sameStatus_nextVirtual hlay hapart _)
      · exact fun _ _ _ => trivial
    · trivial

/-! ## List register writes -/

/-- Marking a list register that is not queued as empty keeps the invariant. -/
theorem Tracked.clear (h : Tracked config ids g) {id : ℕ} {k : Fin 64} (hout : id ∈ ids → k ∉ g.vCpuQueue id) :
    Tracked config ids (g.orByte (g.vDistBank id + (0x30 + (k : ℕ) / 32 * 4)) ((k : ℕ) % 32)) := by
  refine ⟨h.config, h.cpus, fun c hc j => ?_, h.low, h.nodup⟩
  rw [statusBit_orByte]
  change _ ↔ j ∈ g.vCpuQueue c
  by_cases hself : c = id ∧ j = k ∧ (k : ℕ) % 32 < 8
  · obtain ⟨rfl, rfl, -⟩ := hself
    have hset : g.statusBit c j = true := by
      rw [← Bool.not_eq_false]
      exact fun hfalse => hout hc ((h.bits c hc j).mp hfalse)
    simp [hset, hout hc]
  · rw [decide_eq_false hself, Bool.or_false]
    exact h.bits c hc j

/-- A list register that is not queued is put into the queue. -/
theorem Tracked.push (h : Tracked config ids g) {id : ℕ} {k : Fin 64}
    (hout : id ∈ ids → (k : ℕ) % 32 < 8 ∧ k ∉ g.vCpuQueue id) :
    Tracked config ids
      ((g.pushVCpu id k).andNotByte (g.vDistBank id + (0x30 + (k : ℕ) / 32 * 4)) ((k : ℕ) % 32)) := by
  have hq : ∀ c, (g.pushVCpu id k).vCpuQueue c = if c = id then g.vCpuQueue id ++ [k] else g.vCpuQueue c :=
    pushVCpu_vCpuQueue g id k
  refine ⟨h.config, h.cpus, fun c hc j => ?_, fun c hc j hj => ?_, fun c hc => ?_⟩
  · have hbit := statusBit_andNotByte (g.pushVCpu id k) id c k j
    change ((g.pushVCpu id k).andNotByte ((g.pushVCpu id k).vDistBank id + (0x30 + (k : ℕ) / 32 * 4)) ((k : ℕ) % 32)).statusBit c j =
      false ↔ j ∈ (g.pushVCpu id k).vCpuQueue c
    rw [hbit, hq]
    change (g.statusBit c j && _) = false ↔ _
    by_cases hid : c = id
    · subst hid
      obtain ⟨hlow, -⟩ := hout hc
      rw [if_pos rfl, List.mem_append, List.mem_singleton, ← h.bits c hc j, Bool.and_eq_false_iff, Bool.not_eq_false',
        decide_eq_true_iff]
      exact or_congr_right ⟨fun hall => hall.2.1, fun hj => ⟨rfl, hj, hlow⟩⟩
    · have hnot : ¬ (c = id ∧ j = k ∧ (k : ℕ) % 32 < 8) := fun hall => hid hall.1
      rw [if_neg hid, decide_eq_false hnot, Bool.not_false, Bool.and_true]
      exact h.bits c hc j
  · change j ∈ (g.pushVCpu id k).vCpuQueue c at hj
    rw [hq] at hj
    split at hj
    · rename_i hid
      subst hid
      rcases List.mem_append.mp hj with hj | hj
      · exact h.low c hc j hj
      · rw [List.mem_singleton.mp hj]
        exact (hout hc).1
    · exact h.low c hc j hj
  · change ((g.pushVCpu id k).vCpuQueue c).Nodup
    rw [hq]
    split
    · rename_i hid
      subst hid
      rw [← List.concat_eq_append]
      exact List.Nodup.concat (hout hc).2 (h.nodup c hc)
    · exact h.nodup c hc

end Gic

/-- The write goes to list register `k`. -/
def GuestWrite.Lists (w : GuestWrite) (k : Fin 64) : Prop :=
  w.region = .vDist ∧ 0x100 ≤ w.offset ∧ w.offset < 0x200 ∧ (k : ℕ) = (w.offset - 0x100) / 4

namespace Gic

variable {g g' : Gic} {config : GicConfig} {ids : List ℕ}

/-- A guest write after which the status still tracks the queues: a list register that is in the
queue is not written as empty, one is put into the queue only if its bit can change and it is not
there yet, and nothing else stores over the status bytes. -/
structure KeepsStatus (g : Gic) (w : GuestWrite) : Prop where
  clears : ∀ k, w.Lists k → w.id ∈ g.cpus → entryState w.value = 0 → k ∉ g.vCpuQueue w.id
  lists : ∀ k, w.Lists k → w.id ∈ g.cpus → entryState w.value ≠ 0 → g.alreadyListed w.value w.id = false →
    (k : ℕ) % 32 < 8 ∧ k ∉ g.vCpuQueue w.id
  word : w.region = .vDist → ∀ a, g.config.StatusByte g.cpus a → ¬ InBlock (g.config.bank w.id + w.offset) 4 a
  virtual : w.region = .vDist ∧ w.offset = 8 ∨ w.region = .vCpu ∧ isCompletion w.offset →
    VirtualApart g.config g.cpus w.id
  stores : w.region ≠ .vDist → ¬ (w.region = .vCpu ∧ isCompletion w.offset) →
    ∀ a, g.config.StatusByte g.cpus a → ¬ w.Stores g.config a

/-- Writing a list register keeps the invariant, with its queue and its bit changed together. -/
theorem tracked_listEntry (h : Tracked config ids g) {w : GuestWrite} (hkeep : g.KeepsStatus w) {k : Fin 64}
    (hk : w.Lists k) : Tracked config ids (g.listEntry k w.value w.id) := by
  unfold listEntry
  dsimp only
  rw [Nat.add_assoc]
  split
  · rename_i hstate
    exact h.clear fun hid => hkeep.clears k hk (h.cpus ▸ hid) hstate
  · rename_i hstate
    have hsearch : Tracked config ids (g.lookupAll w.id) :=
      h.of_sameStatus (SameStatus.of_mem rfl rfl rfl fun _ _ _ => rfl)
    split
    · exact hsearch
    · rename_i hnew
      exact hsearch.push fun hid => hkeep.lists k hk (h.cpus ▸ hid) hstate (Bool.not_eq_true _ ▸ hnew)

/-! ## Runs -/

/-- The invariant is kept. -/
def StaysTracked (config : GicConfig) (ids : List ℕ) (g g' : Gic) : Prop :=
  Tracked config ids g → Tracked config ids g'

instance : IsPreorder Gic (StaysTracked config ids) where
  refl _ h := h
  trans _ _ _ h h' ht := h' (h ht)

/-- A guest write keeps the invariant. -/
theorem tracked_writeRegion (hlay : StatusApart config ids) (h : Tracked config ids g) {w : GuestWrite}
    (hkeep : g.KeepsStatus w) :
    wp (writeRegion w.region w.offset w.value w.len w.id) (fun _ => Tracked config ids) (fun _ _ => True) g := by
  have hword := hkeep.word
  have hvirtual := hkeep.virtual
  have hstores := hkeep.stores
  rw [h.config, h.cpus] at hword hvirtual hstores
  by_cases hlist : w.region = .vDist
  · have hrun : wp (writeVDist w.offset w.value w.id) (fun _ => StaysTracked config ids g)
        (fun _ => StaysTracked config ids g) g := by
      apply wp_writeVDist
      · exact fun hoff h' => tracked_listEntry h' hkeep ⟨hlist, hoff.1, hoff.2, rfl⟩
      · exact fun _ g h' => h'.of_sameStatus (sameStatus_notifyEmpty hlay g w.id)
      · intro g h'
        refine h'.of_sameStatus (SameStatus.of_mem rfl rfl rfl fun hc a ha => storeWord_frame ?_)
        have hout := hword hlist a ha
        rw [vDistBank, hc]
        unfold InBlock at hout
        omega
      · intro hoff g off v hcases h'
        refine h'.of_sameStatus (leaves_memcpy fun hc a ha => ?_).sameStatus
        have hout := hvirtual (Or.inl ⟨hlist, hoff⟩) a ha
        rw [hc]
        unfold InBlock at hout ⊢
        omega
    rw [hlist]
    exact hrun.imp (fun _ _ h' => h' h) fun _ _ _ => trivial
  · by_cases hend : w.region = .vCpu ∧ isCompletion w.offset
    · rw [hend.1]
      unfold writeRegion writeVCpu
      dsimp only
      apply wp.step
      rw [wp_get, if_pos hend.2]
      split
      · exact tracked_completeVirtual hlay (hvirtual (Or.inr hend)) h w.value
      · exact h
    · exact (wp_leaves_writeRegion g hlist hend (hstores hlist hend)).imp
        (fun _ _ hl => h.of_sameStatus hl.sameStatus) fun _ _ _ => trivial

/-- One operation keeps the invariant. -/
theorem Tracked.step (h : Tracked config ids g) (hlay : StatusApart config ids) {op : GicOp}
    (hkeep : ∀ w, g.config.guestWrite op = some w → g.KeepsStatus w) :
    wp (Gic.step op) (fun _ => Tracked config ids) (fun _ _ => True) g := by
  have hround : ∀ g', Tracked config ids g' → Tracked config ids g'.combLogic :=
    fun g' h' => h'.of_sameStatus ((serves_combLogic g').sameStatus hlay)
  apply wp_step op (fun _ => trivial) fun _ _ => h
  · intro w hw
    exact (tracked_writeRegion hlay h (hkeep w hw)).mono fun _ => hround
  · intro val irqIdx _
    exact (keeps_leaves_raiseLine val (hlay.target (actualIrq irqIdx)) g).imp
      (fun _ g' hl => hround g' (h.of_sameStatus hl.sameStatus)) fun _ _ _ => trivial

/-- Connecting the CPUs stores over the status bytes nothing but ones: the two words of ones, wherever they
land, and the type word, which is apart from them. -/
theorem start_mem_ones (hlay : StatusApart config ids) {mem : ByteMemory}
    (hones : ∀ a, config.StatusByte ids a → mem a = 0xff#8) (behind : ℕ → ℕ → Word) (stack : ℕ → BitVec 8)
    (connected : List ℕ) {a : ℕ} (ha : config.StatusByte ids a) :
    (start config mem behind stack connected).mem a = 0xff#8 := by
  induction connected using List.reverseRecOn with
  | nil => exact hones a ha
  | append_singleton connected id ih =>
    have hconfig := (start_spec config mem behind stack connected).1
    have htype := hlay.type a ha
    unfold start at ih hconfig ⊢
    rw [List.foldl_append, List.foldl_cons, List.foldl_nil]
    generalize List.foldl connectCpu (built config mem behind stack) connected = g at ih hconfig
    apply storeWord_ones
    apply storeWord_ones
    rw [storeWord_frame]
    · exact ih
    · rw [hconfig]
      unfold InBlock at htype
      omega

/-- All status bits are set after the CPUs are connected if the memory holds ones there before. -/
theorem statusBit_start (hlay : StatusApart config ids) {mem : ByteMemory}
    (hones : ∀ a, config.StatusByte ids a → mem a = 0xff#8) (behind : ℕ → ℕ → Word) (stack : ℕ → BitVec 8)
    {id : ℕ} (hid : id ∈ ids) (k : Fin 64) : (start config mem behind stack ids).statusBit id k = true := by
  have hk := k.isLt
  have hbyte : config.StatusByte ids (config.bank id + (0x30 + (k : ℕ) / 32 * 4) + (k : ℕ) % 32 / 8) := by
    refine ⟨id, hid, ?_⟩
    unfold InBlock
    omega
  rw [statusBit_eq, (start_spec config mem behind stack ids).1, start_mem_ones hlay hones behind stack ids hbyte]
  have hbit : (k : ℕ) % 32 % 8 < 8 := Nat.mod_lt _ (by omega)
  generalize (k : ℕ) % 32 % 8 = i at hbit
  interval_cases i <;> rfl

/-- In every run on a memory that holds ones in the status bytes before the CPUs are connected, and whose
writes keep the status, the status bits are clear exactly for the list registers in the queues. All of them
are set after the CPUs are connected. -/
theorem statusTracks_of_keepsStatus (config : GicConfig) (mem : ByteMemory) (behind : ℕ → ℕ → Word)
    (stack : ℕ → BitVec 8) (ids : List ℕ) (ops : List GicOp) (s : Gic) (hlay : StatusApart config ids)
    (hones : ∀ a, config.StatusByte ids a → mem a = 0xff#8)
    (hcond : Along step (fun g op => ∀ w, g.config.guestWrite op = some w → g.KeepsStatus w)
      (start config mem behind stack ids) ops)
    (hrun : runAll ops (start config mem behind stack ids) = .ok () s) :
    (∀ id ∈ ids, ∀ k, (start config mem behind stack ids).statusBit id k = true) ∧ s.StatusTracks := by
  have hset : ∀ id ∈ ids, ∀ k, (start config mem behind stack ids).statusBit id k = true :=
    fun id hid k => statusBit_start hlay hones behind stack hid k
  obtain ⟨hconfig, hcpus, -, -, -, hqueue⟩ := start_spec config mem behind stack ids
  have htracked : Tracked config ids (start config mem behind stack ids) := by
    refine ⟨hconfig, hcpus, fun id hid k => ?_, fun id _ k hk => ?_, fun id _ => ?_⟩
    · rw [hset id hid k, hqueue]
      simp
    · rw [hqueue] at hk
      cases hk
    · rw [hqueue]
      exact List.nodup_nil
  have hall : wp (runAll ops) (fun _ => Tracked config ids) (fun _ _ => True) (start config mem behind stack ids) :=
    hcond.wp_forM (fun _ _ _ h hkeep => h.step hlay hkeep) htracked
  have hs := hall.of_ok hrun
  refine ⟨hset, fun id hid k => ?_⟩
  exact hs.bits id (hs.cpus ▸ hid) k

/-- The small controller with ones in the status of CPU 0. -/
def allEmpty : Gic :=
  start (small [0]).config (fun a => if 0x10030 ≤ a ∧ a < 0x10038 then 0xFF#8 else 0#8) (fun _ _ => 0#32)
    (fun _ => 0#8) [0]

/-- The status bytes of the small controller are those from `0x10030` to `0x10037`. -/
theorem statusByte_small {a : ℕ} (h : (small [0]).config.StatusByte [0] a) : 0x10030 ≤ a ∧ a < 0x10038 := by
  obtain ⟨c, hc, hin⟩ := h
  rw [List.mem_singleton.mp hc] at hin
  exact hin

theorem statusApart_small : StatusApart (small [0]).config [0] := by
  constructor
  · intro a ha
    have hin := statusByte_small ha
    change ¬ InBlock (4 * (0 / 4 + 1)) 4 a
    unfold InBlock
    omega
  · intro c hc a ha
    have hin := statusByte_small ha
    rw [List.mem_singleton.mp hc]
    change ¬ InBlock (4 * ((0x1000 + 0x100 * 0 + 0xC) / 4)) 4 a ∧ ¬ InBlock (4 * ((0x2000 + 0x100 * 0 + 0xC) / 4)) 4 a
    unfold InBlock
    omega
  · intro n hn ha
    have hin := statusByte_small ha
    change 0x10030 ≤ 0 + 0x800 + n ∧ 0 + 0x800 + n < 0x10038 at hin
    omega

/-- After CPU 0 has listed interrupt 33 in list register 3 and ended it, the status tracks the queue. -/
theorem statusTracks_one_entry :
    (∀ id ∈ [0], ∀ k, allEmpty.statusBit id k = true) ∧ (endState (runAll [.write (some 0) 0x1010C#64 0x10000021#32 4, .write (some 0) 0x2010#64 33#32 4]
      allEmpty)).StatusTracks := by
  have hvirtual : VirtualApart (small [0]).config [0] 0 := by
    intro a ha
    have hin := statusByte_small ha
    change ¬ InBlock (0x2000 + 0 * 0x100) 0x10 a
    unfold InBlock
    omega
  refine statusTracks_of_keepsStatus _ _ _ _ _ _ _ statusApart_small ?_ ?_ (eq_ok_endState (by decide +kernel))
  · intro a ha
    exact if_pos (statusByte_small ha)
  · have hstart := enabledBelow_start (small [0]).config (fun a => if 0x10030 ≤ a ∧ a < 0x10038 then 0xFF#8 else 0#8)
      (fun _ _ => 0#32) (fun _ => 0#8) [0]
    refine ⟨fun w hw => ?_, fun s' hop => ⟨fun w hw => ?_, fun _ _ => trivial⟩⟩
    · have hfirst : (small [0]).config.guestWrite (.write (some 0) 0x1010C#64 0x10000021#32 4) =
          some ⟨.vDist, 0x10C, 0x10000021#32, 4, 0⟩ := by
        decide +kernel
      rw [hstart.config] at hw
      cases hfirst.symm.trans hw
      constructor
      · exact fun k _ _ hstate => absurd hstate (by decide)
      · rintro k ⟨-, -, -, hk⟩ _ _ _
        have hqueue := (start_spec (small [0]).config (fun a => if 0x10030 ≤ a ∧ a < 0x10038 then 0xFF#8 else 0#8)
          (fun _ _ => 0#32) (fun _ => 0#8) [0]).2.2.2.2.2 0
        rw [hqueue]
        exact ⟨by rw [hk]; decide, by simp⟩
      · intro _ a ha
        rw [hstart.config, hstart.cpus] at ha
        have hin := statusByte_small ha
        rw [hstart.config]
        have haddr : (small [0]).config.bank 0 + 0x10C = 0x1010C := by decide +kernel
        rw [haddr]
        unfold InBlock
        omega
      · rintro (⟨-, hoff⟩ | ⟨hregion, -⟩)
        · cases hoff
        · cases hregion
      · exact fun hregion => absurd rfl hregion
    · have hs' : EnabledBelow (small [0]).config [0] s' := (hstart.step _).of_ok hop
      rw [hs'.config] at hw
      cases hw
      constructor
      · exact fun k hlists => by cases hlists.1
      · exact fun k hlists => by cases hlists.1
      · exact fun hregion => by cases hregion
      · intro _
        rw [hs'.config, hs'.cpus]
        exact hvirtual
      · exact fun _ hnot => absurd ⟨rfl, rfl⟩ hnot

/-- On a zeroed memory all list registers read as occupied after `connectCpu`. -/
theorem status_clear_after_connect : ¬ (small [0]).StatusTracks := by
  intro hall
  have hbit : (small [0]).statusBit 0 0 = false := by decide +kernel
  have hqueue : (small [0]).vCpuQueue 0 = [] := by decide +kernel
  have hmem := (hall 0 (by decide +kernel) 0).mp hbit
  rw [hqueue] at hmem
  cases hmem

end Gic

end Vpsim.Peripherals
