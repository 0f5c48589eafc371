import Vpsim.Peripherals.GicEnable

/-!
# The bytes that an access stores

Which bytes of the memory a guest write can change follows from its region, offset and length:
`GuestWrite.Stores` lists them. Everything else keeps its value, except for the acknowledge words
of the connected CPUs, which every round of the combinational logic may write.
-/

namespace Vpsim.Peripherals

open Vpsim.Lib

/-- The bytes of a list-register bank that completions and list-register writes change: pending
maintenance, end-of-interrupt and empty status, and the entries. -/
def GicConfig.ListByte (config : GicConfig) (id a : ℕ) : Prop := InBlock (config.bank id + 0x10) 0x1F0 a

/-- The bytes that a guest write can store, apart from the acknowledge words of a round. -/
def GuestWrite.Stores (w : GuestWrite) (config : GicConfig) (a : ℕ) : Prop :=
  match w.region with
  | .dist =>
    if (0x100 ≤ w.offset ∧ w.offset ≤ 0x17C) ∨ (0x180 ≤ w.offset ∧ w.offset ≤ 0x1FC) then
      InBlock (config.distBase + 0x100) 0x100 a
    else if w.offset = 0xF00 then a = config.distBase + 0x800 + Gic.sgiNumber w.value
    else InBlock (config.distBase + w.offset) w.len a
  | .cpu =>
    if isCompletion w.offset then InBlock (Gic.ackAddr config w.id) 4 a
    else InBlock (config.cpuBase + w.offset + w.id * 0x100) w.len a
  | .vCpu =>
    if isCompletion w.offset then InBlock (Gic.vAckAddr config w.id) 4 a ∨ config.ListByte w.id a
    else InBlock (config.vCpuBase + w.offset + w.id * 0x100) w.len a
  | .vDist =>
    InBlock (config.bank w.id + w.offset) 4 a ∨
      (0x100 ≤ w.offset ∧ w.offset < 0x200 ∧ config.ListByte w.id a) ∨
      (w.offset = 8 ∧ InBlock (config.vCpuBase + w.id * 0x100) 8 a)

namespace Gic

variable {g g' g'' : Gic} {config : GicConfig} {a : ℕ}

/-- Byte `a` keeps its value, unless a round writes it as part of an acknowledge word. -/
def Spares (config : GicConfig) (a : ℕ) (g g' : Gic) : Prop :=
  g.config = config → g'.config = config ∧ g'.cpus = g.cpus ∧ (g'.Quiet a → g.Quiet a ∧ g'.mem a = g.mem a)

/-- A change outside the queues. -/
theorem Spares.of_mem (hc : g'.config = g.config) (hcpus : g'.cpus = g.cpus) (hqueue : g'.cpuQueue = g.cpuQueue)
    (hmem : g.config = config → g'.mem a = g.mem a) : Spares config a g g' := by
  refine fun h => ⟨hc.trans h, hcpus, fun hquiet => ⟨?_, hmem h⟩⟩
  unfold Quiet at hquiet ⊢
  rwa [hc, hcpus, hqueue] at hquiet

theorem Spares.trans (h : Spares config a g g') (h' : Spares config a g' g'') : Spares config a g g'' := by
  intro hconfig
  obtain ⟨hc, hcpus, hmem⟩ := h hconfig
  obtain ⟨hc', hcpus', hmem'⟩ := h' hc
  refine ⟨hc', hcpus'.trans hcpus, fun hquiet => ?_⟩
  obtain ⟨hquiet', heq'⟩ := hmem' hquiet
  obtain ⟨hquiet'', heq''⟩ := hmem hquiet'
  exact ⟨hquiet'', heq'.trans heq''⟩

instance : IsPreorder Gic (Spares config a) where
  refl _ := Spares.of_mem rfl rfl rfl fun _ => rfl
  trans _ _ _ := Spares.trans

theorem Serves.spares (h : Serves g g') : Spares config a g g' :=
  fun hc => ⟨h.config.trans hc, h.cpus, fun hquiet => ⟨h.quiet hquiet, h.mem a hquiet⟩⟩

theorem spares_pushCpu (g : Gic) (cpu : ℕ) (v : Word) : Spares config a g (g.pushCpu cpu v) := by
  refine fun hc => ⟨hc, rfl, fun hquiet => ⟨fun c hcpu => ?_, rfl⟩⟩
  obtain ⟨hack, hvack⟩ := hquiet c hcpu
  refine ⟨fun hin => ?_, hvack⟩
  have hempty := hack hin
  rw [pushCpu_cpuQueue] at hempty
  split at hempty
  · exact absurd hempty (by simp)
  · exact hempty

/-- The front of a queue goes, away from the acknowledge word of its CPU. -/
theorem spares_popCpu {cpu : ℕ} (h : ¬ InBlock (ackAddr config cpu) 4 a) (g : Gic) :
    Spares config a g (g.popCpu cpu) := by
  refine fun hc => ⟨hc, rfl, fun hquiet => ⟨fun c hcpu => ?_, rfl⟩⟩
  obtain ⟨hack, hvack⟩ := hquiet c hcpu
  refine ⟨fun hin => ?_, hvack⟩
  have hne : c ≠ cpu := by
    rintro rfl
    rw [← hc] at h
    exact h hin
  have hempty := hack hin
  rwa [popCpu_cpuQueue, if_neg hne] at hempty

theorem spares_genMaint (g : Gic) (cpu : ℕ) : Spares config a g (g.genMaint cpu) := by
  have hserve := serves_genMaint g cpu
  split at hserve
  · exact hserve.spares
  · exact (spares_pushCpu g cpu _).trans hserve.spares

theorem spares_putWord {addr : ℕ} {w : Word} (h : g.config = config → ¬ InBlock addr 4 a) :
    Spares config a g (g.putWord addr w) := by
  refine Spares.of_mem rfl rfl rfl fun hc => storeWord_frame ?_
  have hout := h hc
  unfold InBlock at hout
  omega

theorem spares_putByte {addr : ℕ} {b : BitVec 8} (h : g.config = config → a ≠ addr) :
    Spares config a g (g.putByte addr b) :=
  Spares.of_mem rfl rfl rfl fun hc => storeByte_frame (h hc)

theorem spares_memcpy {addr size : ℕ} {value : Word} (h : g.config = config → ¬ InBlock addr size a) :
    Spares config a g (g.memcpy addr value size) := by
  refine Spares.of_mem rfl rfl rfl fun hc => ?_
  have hout := h hc
  unfold InBlock at hout
  simp only [memcpy]
  rw [store_frame (by omega)]

/-- A byte of a list-register bank is set or cleared. -/
theorem spares_bankByte {id off : ℕ} {b : BitVec 8} (h : ¬ config.ListByte id a) (hlow : 0x10 ≤ off)
    (hhigh : off < 0x200) (g : Gic) : Spares config a g (g.putByte (g.vDistBank id + off) b) := by
  refine spares_putByte fun hc => ?_
  unfold GicConfig.ListByte InBlock at h
  rw [vDistBank, hc]
  omega

theorem spares_bankBit {id off i : ℕ} (h : ¬ config.ListByte id a) (hlow : 0x10 ≤ off) (hhigh : off < 0x200)
    (g : Gic) : Spares config a g (g.orByte (g.vDistBank id + off) i) :=
  spares_bankByte h hlow hhigh g

theorem spares_retireEntry {id : ℕ} (h : ¬ config.ListByte id a) (g : Gic) (k : Fin 64) :
    Spares config a g (g.retireEntry id k) := by
  have hk := k.isLt
  refine Spares.trans (spares_bankBit h ?_ ?_ g) (spares_putWord fun hc => ?_)
  · omega
  · omega
  · unfold GicConfig.ListByte InBlock at h
    rw [vDistBank, hc]
    unfold InBlock
    omega

theorem spares_notifyEnd {id : ℕ} (h : ¬ config.ListByte id a) (g : Gic) (k : Fin 64) :
    Spares config a g (g.notifyEnd id k) := by
  have hk := k.isLt
  unfold notifyEnd
  refine Spares.trans (spares_bankBit h ?_ ?_ g) (Spares.trans (spares_bankBit h ?_ ?_ _) (spares_genMaint _ id))
  · omega
  · omega
  · omega
  · omega

/-- A maintenance interrupt for an empty queue stores nothing outside the list registers and acknowledge
words. -/
theorem spares_maintenance {id : ℕ} (h : ¬ config.ListByte id a) (g : Gic) :
    Spares config a g ((g.orByte (g.vDistBank id + 0x10) 3).genMaint id) :=
  Spares.trans (spares_bankByte h (by omega) (by omega) g) (spares_genMaint _ id)

theorem spares_setVirtual {id : ℕ} (h : ¬ InBlock (vAckAddr config id) 4 a) (g : Gic) (value : Word) :
    Spares config a g (g.setCurrentVirtualInterruptId id value) := by
  refine spares_putWord fun hc => ?_
  rw [hc]
  exact h

theorem spares_nextVirtual {id : ℕ} (h : ¬ config.ListByte id a) (hack : ¬ InBlock (vAckAddr config id) 4 a)
    (g : Gic) : Spares config a g ((g.popVCpu id).nextVirtual id) := by
  have hpop : Spares config a g (g.popVCpu id) := Spares.of_mem rfl rfl rfl fun _ => rfl
  refine hpop.trans ?_
  unfold nextVirtual
  split
  · exact spares_setVirtual hack _ _
  · dsimp only
    split
    · exact (spares_setVirtual hack _ _).trans (spares_maintenance h _)
    · exact spares_setVirtual hack _ _

theorem spares_listEntry {id : ℕ} (h : ¬ config.ListByte id a) (g : Gic) (which : Fin 64) (value : Word) :
    Spares config a g (g.listEntry which value id) := by
  have hk := which.isLt
  unfold listEntry
  dsimp only
  split
  · rw [Nat.add_assoc]
    exact spares_bankByte h (by omega) (by omega) g
  · split
    · exact Spares.of_mem rfl rfl rfl fun _ => rfl
    · have hpush : Spares config a g (g.pushVCpu id which) := Spares.of_mem rfl rfl rfl fun _ => rfl
      rw [Nat.add_assoc]
      exact hpush.trans (spares_bankByte h (by omega) (by omega) _)

theorem spares_notifyEmpty {id : ℕ} (h : ¬ config.ListByte id a) (g : Gic) :
    Spares config a g (g.notifyEmpty id) := by
  unfold notifyEmpty
  split
  · exact spares_maintenance h g
  · exact Spares.of_mem rfl rfl rfl fun _ => rfl

/-- A guest write stores the bytes of `Stores` and acknowledge words only. -/
theorem wp_spares_writeRegion (g : Gic) (w : GuestWrite) (h : ¬ w.Stores config a)
    (hvirtual : w.region = .vCpu → isCompletion w.offset → g.Effective g.config.vCpuBase w.offset w.id →
      ∀ k rest, g.vCpuQueue w.id = k :: rest → entryHw (g.getVIntEntry k) →
      ¬ InBlock (ackAddr config w.id) 4 a) :
    wp (writeRegion w.region w.offset w.value w.len w.id) (fun _ => Spares config a g)
      (fun _ => Spares config a g) g := by
  unfold GuestWrite.Stores at h
  cases hregion : w.region with
  | dist =>
    simp only [hregion] at h
    refine keeps_writeDist ?_ ?_ ?_ ?_ g
    · intro hlow hhigh g
      rw [if_pos (Or.inl ⟨hlow, hhigh⟩)] at h
      obtain ⟨mem, map, heq, hmem, -⟩ := enableBits_spec g hlow hhigh w.value w.id
      rw [heq]
      refine Spares.of_mem rfl rfl rfl fun hc => hmem a ?_
      unfold InBlock at h
      rw [hc]
      omega
    · intro hlow hhigh g
      rw [if_pos (Or.inr ⟨hlow, hhigh⟩)] at h
      obtain ⟨mem, map, heq, hmem, -⟩ := disableBits_spec g hlow hhigh w.value w.id
      rw [heq]
      refine Spares.of_mem rfl rfl rfl fun hc => hmem a ?_
      unfold InBlock at h
      rw [hc]
      omega
    · intro hoff
      rw [if_neg (by omega), if_pos hoff] at h
      apply keeps_generateSgi
      · intro g
        refine spares_putByte fun hc => ?_
        rw [hc]
        exact h
      · intro g cpuT _
        exact Spares.of_mem rfl rfl rfl fun _ => rfl
    · intro hen hdis hsgi g
      rw [if_neg (by omega), if_neg hsgi] at h
      refine spares_memcpy fun hc => ?_
      rw [hc]
      exact h
  | cpu =>
    simp only [hregion] at h
    apply wp_writeCpu
    · intro hoff _
      rw [if_pos hoff] at h
      apply keeps_completeInterrupt
      · intro g i
        exact Spares.of_mem rfl rfl rfl fun _ => rfl
      · exact spares_popCpu h
      · intro g
        exact Spares.of_mem rfl rfl rfl fun _ => rfl
      · intro g n
        exact Spares.of_mem rfl rfl rfl fun _ => rfl
      · intro g v
        refine spares_putWord fun hc => ?_
        rw [hc]
        exact h
      · intro g
        exact Spares.of_mem rfl rfl rfl fun _ => rfl
    · intro hoff
      rw [if_neg hoff] at h
      refine spares_memcpy fun hc => ?_
      rw [hc]
      exact h
  | vCpu =>
    simp only [hregion] at h
    apply wp_writeVCpu
    · intro hoff heff
      rw [if_pos hoff, not_or] at h
      apply wp_completeVirtual
      · intro k rest _
        exact Spares.of_mem rfl rfl rfl fun _ => rfl
      · intro k rest hqueue g'
        exact spares_retireEntry h.2 g' k
      · intro k rest hqueue _
        apply keeps_endEntry
        · intro g i
          exact Spares.of_mem rfl rfl rfl fun _ => rfl
        · exact fun hhw => spares_popCpu (hvirtual hregion hoff heff k rest hqueue hhw)
        · intro _ g
          exact Spares.of_mem rfl rfl rfl fun _ => rfl
        · intro g
          exact spares_notifyEnd h.2 g k
      · intro g
        exact spares_nextVirtual h.2 h.1 g
    · intro hoff
      rw [if_neg hoff] at h
      refine spares_memcpy fun hc => ?_
      rw [hc]
      exact h
  | vDist =>
    simp only [hregion, not_or] at h
    obtain ⟨hword, hlist, hforward⟩ := h
    apply wp_writeVDist
    · intro hoff
      exact spares_listEntry (fun hbyte => hlist ⟨hoff.1, hoff.2, hbyte⟩) g _ _
    · intro hoff g
      exact spares_notifyEmpty (fun hbyte => hlist ⟨hoff.1, hoff.2, hbyte⟩) g
    · intro g
      refine spares_putWord fun hc => ?_
      rw [vDistBank, hc]
      exact hword
    · intro hoff g off v hcases
      refine spares_memcpy fun hc => ?_
      rw [hc]
      intro hbyte
      unfold InBlock at hbyte hforward
      omega

/-! ## The queues -/

section Queues

variable {R : Gic → Gic → Prop} [IsPreorder Gic R] (heq : ∀ g g', g'.cpuQueue = g.cpuQueue → R g g')
  (hserve : ∀ g g', Serves g g' → R g g') (hpush : ∀ g cpu v, v ∉ g.cpuQueue cpu → R g (g.pushCpu cpu v))

include hserve hpush in
/-- The maintenance interrupt, for a relation on the queues. -/
theorem queue_genMaint (g : Gic) (cpu : ℕ) : R g (g.genMaint cpu) := by
  have hround := serves_genMaint g cpu
  split at hround
  · exact hserve _ _ hround
  · rename_i hnot
    exact trans_of R (hpush g cpu _ hnot) (hserve _ _ hround)

include heq hserve hpush

theorem queue_notifyEmpty (g : Gic) (id : ℕ) : R g (g.notifyEmpty id) := by
  unfold notifyEmpty
  split
  · refine trans_of R ?_ (queue_genMaint hserve hpush _ id)
    exact heq g _ rfl
  · exact heq g g rfl

theorem queue_nextVirtual (g : Gic) (id : ℕ) : R g ((g.popVCpu id).nextVirtual id) := by
  unfold nextVirtual
  split
  · exact heq g _ rfl
  · dsimp only
    split
    · refine trans_of R ?_ (queue_genMaint hserve hpush _ id)
      exact heq g _ rfl
    · exact heq g _ rfl

omit hserve hpush [IsPreorder Gic R] in
theorem queue_listEntry (g : Gic) (which : Fin 64) (value : Word) (id : ℕ) : R g (g.listEntry which value id) := by
  apply heq
  unfold listEntry
  dsimp only
  split
  · rfl
  · split
    · rfl
    · rfl

/-- The queues after a guest write: they change by rounds, by the maintenance interrupt and by
completions. -/
theorem wp_queue_writeRegion (g : Gic) (w : GuestWrite)
    (hcpu : w.region = .cpu → isCompletion w.offset → ∀ g', R g' (g'.popCpu w.id))
    (hvirtual : w.region = .vCpu → isCompletion w.offset → g.Effective g.config.vCpuBase w.offset w.id →
      ∀ k rest, g.vCpuQueue w.id = k :: rest → entryHw (g.getVIntEntry k) → ∀ g', R g' (g'.popCpu w.id)) :
    wp (writeRegion w.region w.offset w.value w.len w.id) (fun _ => R g) (fun _ => R g) g := by
  cases hregion : w.region with
  | dist =>
    refine keeps_writeDist ?_ ?_ ?_ ?_ g
    · intro hlow hhigh g
      obtain ⟨mem, map, hspec, -, -⟩ := enableBits_spec g hlow hhigh w.value w.id
      rw [hspec]
      exact heq g _ rfl
    · intro hlow hhigh g
      obtain ⟨mem, map, hspec, -, -⟩ := disableBits_spec g hlow hhigh w.value w.id
      rw [hspec]
      exact heq g _ rfl
    · intro _
      exact keeps_generateSgi (fun g => heq g _ rfl) fun g _ _ => heq g _ rfl
    · intro _ _ _ g
      exact heq g _ rfl
  | cpu =>
    apply wp_writeCpu
    · intro hoff _
      exact keeps_completeInterrupt (fun g _ => heq g _ rfl) (hcpu hregion hoff) (fun g => heq g _ rfl)
        (fun g _ => heq g _ rfl) (fun g _ => heq g _ rfl) fun g => heq g _ rfl
    · intro _
      exact heq g _ rfl
  | vCpu =>
    apply wp_writeVCpu
    · intro hoff heff
      apply wp_completeVirtual
      · intro k rest _
        exact heq g _ rfl
      · intro k rest _ g'
        exact heq g' _ rfl
      · intro k rest hqueue _
        apply keeps_endEntry (fun g _ => heq g _ rfl)
        · exact fun hhw => hvirtual hregion hoff heff k rest hqueue hhw
        · exact fun _ g => heq g _ rfl
        · intro g
          refine trans_of R ?_ (queue_genMaint hserve hpush _ w.id)
          exact heq g _ rfl
      · exact fun g => queue_nextVirtual heq hserve hpush g w.id
    · intro _
      exact heq g _ rfl
  | vDist =>
    exact wp_writeVDist (fun _ => queue_listEntry heq g _ _ _)
      (fun _ g => queue_notifyEmpty heq hserve hpush g w.id) (fun g => heq g _ rfl) fun _ g _ _ _ => heq g _ rfl

end Queues

/-- An input line stores the target byte of a private interrupt only. -/
theorem keeps_spares_raiseLine {val : BitVec 64} {irqIdx : Word}
    (h : actualIrq irqIdx < 32 → a ≠ config.distBase + 0x800 + actualIrq irqIdx) :
    Keeps (Spares config a) (raiseLine val irqIdx) := by
  intro g
  apply wp_raiseLine
  · intro g cpu i
    exact Spares.of_mem rfl rfl rfl fun _ => rfl
  · intro g cpu _
    exact Spares.of_mem rfl rfl rfl fun _ => rfl
  · intro hlow cpu _ _ g
    refine spares_putByte fun hc => ?_
    rw [hc]
    exact h hlow

/-! ## Accesses outside the virtual interface -/

/-- The virtual queues and the bytes of `P` stay, and the log grows by indices only. -/
structure Unmoved (P : ℕ → Prop) (g g' : Gic) : Prop where
  config : g'.config = g.config
  cpus : g'.cpus = g.cpus
  vCpuQueue : g'.vCpuQueue = g.vCpuQueue
  mem : ∀ a, P a → g'.mem a = g.mem a
  log : ∃ new, g'.log = new ++ g.log ∧ ∀ e ∈ new, ∃ cpu i, e = .index cpu i

/-- `Unmoved` for a controller with a given configuration. -/
def Leaves (config : GicConfig) (P : ℕ → Prop) (g g' : Gic) : Prop := g.config = config → Unmoved P g g'

section Leaves

variable {P : ℕ → Prop}

/-- A change that records nothing. -/
theorem Leaves.of_mem (hc : g'.config = g.config) (hcpus : g'.cpus = g.cpus) (hqueue : g'.vCpuQueue = g.vCpuQueue)
    (hlog : g'.log = g.log) (hmem : g.config = config → ∀ a, P a → g'.mem a = g.mem a) : Leaves config P g g' :=
  fun hconfig => ⟨hc, hcpus, hqueue, hmem hconfig, [], hlog, by simp⟩

instance : IsPreorder Gic (Leaves config P) where
  refl _ := Leaves.of_mem rfl rfl rfl rfl fun _ _ _ => rfl
  trans _ _ _ h h' := by
    intro hconfig
    have h1 := h hconfig
    have h2 := h' (h1.config.trans hconfig)
    obtain ⟨new, hlog, hnew⟩ := h1.log
    obtain ⟨new', hlog', hnew'⟩ := h2.log
    refine ⟨h2.config.trans h1.config, h2.cpus.trans h1.cpus, h2.vCpuQueue.trans h1.vCpuQueue, ?_, new' ++ new, ?_, ?_⟩
    · exact fun a ha => (h2.mem a ha).trans (h1.mem a ha)
    · rw [hlog', hlog, List.append_assoc]
    · intro e he
      rcases List.mem_append.mp he with he | he
      · exact hnew' e he
      · exact hnew e he

theorem leaves_index (g : Gic) (cpu i : ℕ) : Leaves config P g (g.record (.index cpu i)) :=
  fun _ => ⟨rfl, rfl, rfl, fun _ _ => rfl, [.index cpu i], rfl, by simp⟩

theorem leaves_putByte {addr : ℕ} {b : BitVec 8} (h : g.config = config → ¬ P addr) :
    Leaves config P g (g.putByte addr b) := by
  refine Leaves.of_mem rfl rfl rfl rfl fun hc a ha => storeByte_frame ?_
  rintro rfl
  exact h hc ha

theorem leaves_putWord {addr : ℕ} {w : Word} (h : g.config = config → ∀ a, P a → ¬ InBlock addr 4 a) :
    Leaves config P g (g.putWord addr w) := by
  refine Leaves.of_mem rfl rfl rfl rfl fun hc a ha => storeWord_frame ?_
  have hout := h hc a ha
  unfold InBlock at hout
  omega

theorem leaves_memcpy {addr size : ℕ} {value : Word} (h : g.config = config → ∀ a, P a → ¬ InBlock addr size a) :
    Leaves config P g (g.memcpy addr value size) := by
  refine Leaves.of_mem rfl rfl rfl rfl fun hc a ha => ?_
  have hout := h hc a ha
  unfold InBlock at hout
  simp only [memcpy]
  rw [store_frame (by omega)]

/-- A write to the distributor leaves the bytes that it does not store. -/
theorem keeps_leaves_writeDist {w : GuestWrite} (hregion : w.region = .dist) (h : ∀ a, P a → ¬ w.Stores config a) :
    Keeps (Leaves config P) (writeDist w.offset w.value w.len w.id) := by
  simp only [GuestWrite.Stores, hregion] at h
  have hblock : (0x100 ≤ w.offset ∧ w.offset ≤ 0x17C) ∨ (0x180 ≤ w.offset ∧ w.offset ≤ 0x1FC) → ∀ a, P a →
      a < config.distBase + 0x100 ∨ config.distBase + 0x200 ≤ a := by
    intro hoff a ha
    have hout := h a ha
    rw [if_pos hoff] at hout
    unfold InBlock at hout
    omega
  apply keeps_writeDist
  · intro hlow hhigh g
    obtain ⟨mem, map, heq, hmem, -⟩ := enableBits_spec g hlow hhigh w.value w.id
    rw [heq]
    refine Leaves.of_mem rfl rfl rfl rfl fun hc a ha => hmem a ?_
    rw [hc]
    exact hblock (Or.inl ⟨hlow, hhigh⟩) a ha
  · intro hlow hhigh g
    obtain ⟨mem, map, heq, hmem, -⟩ := disableBits_spec g hlow hhigh w.value w.id
    rw [heq]
    refine Leaves.of_mem rfl rfl rfl rfl fun hc a ha => hmem a ?_
    rw [hc]
    exact hblock (Or.inr ⟨hlow, hhigh⟩) a ha
  · intro hoff
    apply keeps_generateSgi
    · intro g
      refine leaves_putByte fun hc hin => ?_
      have hout := h _ hin
      rw [if_neg (by omega), if_pos hoff, hc] at hout
      exact hout rfl
    · intro g cpuT _ _
      exact ⟨rfl, rfl, rfl, fun _ _ => rfl, [.index cpuT (sgiNumber w.value / 32)], rfl, by simp⟩
  · intro hen hdis hsgi g
    refine leaves_memcpy fun hc a ha => ?_
    have hout := h a ha
    rw [if_neg (by omega), if_neg hsgi] at hout
    rw [hc]
    exact hout

/-- A write outside the virtual interface, or a plain write to it, leaves the bytes that it does not
store. -/
theorem wp_leaves_writeRegion (g : Gic) {w : GuestWrite} (hlist : w.region ≠ .vDist)
    (hplain : ¬ (w.region = .vCpu ∧ isCompletion w.offset)) (h : ∀ a, P a → ¬ w.Stores config a) :
    wp (writeRegion w.region w.offset w.value w.len w.id) (fun _ => Leaves config P g) (fun _ => Leaves config P g) g := by
  cases hregion : w.region with
  | dist => exact keeps_leaves_writeDist hregion h g
  | cpu =>
    simp only [GuestWrite.Stores, hregion] at h
    apply wp_writeCpu
    · intro hoff _
      apply keeps_completeInterrupt (R := Leaves config P) (fun g i => leaves_index g w.id i)
      · exact fun _ => Leaves.of_mem rfl rfl rfl rfl fun _ _ _ => rfl
      · exact fun _ => Leaves.of_mem rfl rfl rfl rfl fun _ _ _ => rfl
      · exact fun _ _ => Leaves.of_mem rfl rfl rfl rfl fun _ _ _ => rfl
      · intro g v
        refine leaves_putWord fun hc a ha => ?_
        have hout := h a ha
        rw [if_pos hoff] at hout
        rw [hc]
        exact hout
      · exact fun _ => Leaves.of_mem rfl rfl rfl rfl fun _ _ _ => rfl
    · intro hoff
      refine leaves_memcpy fun hc a ha => ?_
      have hout := h a ha
      rw [if_neg hoff] at hout
      rw [hc]
      exact hout
  | vCpu =>
    simp only [GuestWrite.Stores, hregion] at h
    apply wp_writeVCpu
    · intro hoff _
      exact absurd ⟨hregion, hoff⟩ hplain
    · intro hoff
      refine leaves_memcpy fun hc a ha => ?_
      have hout := h a ha
      rw [if_neg hoff] at hout
      rw [hc]
      exact hout
  | vDist => exact absurd hregion hlist

/-- An input line leaves all bytes but the target byte of a private interrupt. -/
theorem keeps_leaves_raiseLine (val : BitVec 64) {irqIdx : Word}
    (h : actualIrq irqIdx < 32 → ¬ P (config.distBase + 0x800 + actualIrq irqIdx)) :
    Keeps (Leaves config P) (raiseLine val irqIdx) := by
  intro g
  apply wp_raiseLine
  · exact fun g cpu i => leaves_index g cpu i
  · exact fun _ _ _ => Leaves.of_mem rfl rfl rfl rfl fun _ _ _ => rfl
  · intro hlow _ _ _ g
    refine leaves_putByte fun hc => ?_
    rw [hc]
    exact h hlow

end Leaves

end Gic

end Vpsim.Peripherals
