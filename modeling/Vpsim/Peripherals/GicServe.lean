import Vpsim.Peripherals.GicAccess

/-!
# What the combinational logic does

Serving the CPUs appends to their queues interrupts that are enabled, writes the acknowledge
words of connected CPUs and nothing else in memory, and leaves the rest of the state alone. The
relation `Serves` collects this; it composes, so it holds for a whole round.
-/

namespace Vpsim.Peripherals

open Vpsim.Lib

namespace Gic

variable {g g' g'' : Gic} {cpu : ℕ}

/-- The address of the acknowledge word of a CPU. -/
def ackAddr (config : GicConfig) (cpu : ℕ) : ℕ := 4 * ((config.cpuBase + 0x100 * cpu + 0xC) / 4)

/-- The address of the acknowledge word of the virtual interface of a CPU. -/
def vAckAddr (config : GicConfig) (cpu : ℕ) : ℕ := 4 * ((config.vCpuBase + 0x100 * cpu + 0xC) / 4)

/-- A round leaves the byte alone: it belongs to no acknowledge word of a connected CPU, unless
the CPU has an empty queue. -/
def Quiet (g : Gic) (a : ℕ) : Prop :=
  ∀ cpu ∈ g.cpus, (InBlock (ackAddr g.config cpu) 4 a → g.cpuQueue cpu = []) ∧
    ¬ InBlock (vAckAddr g.config cpu) 4 a

/-- The value `v` is what a CPU acknowledges for an interrupt that is enabled for it. -/
def Enabled (g : Gic) (cpu : ℕ) (v : Word) : Prop :=
  ∃ n, findEntry n (g.enableStatus cpu) = some true ∧ v = g.ackValue cpu n

/-- The byte belongs to no acknowledge word of a connected CPU. -/
def Apart (g : Gic) (a : ℕ) : Prop :=
  ∀ cpu ∈ g.cpus, ¬ InBlock (ackAddr g.config cpu) 4 a ∧ ¬ InBlock (vAckAddr g.config cpu) 4 a

theorem Apart.quiet {a : ℕ} (h : g.Apart a) : g.Quiet a :=
  fun cpu hcpu => ⟨fun hin => absurd hin (h cpu hcpu).1, (h cpu hcpu).2⟩

/-- The events of a round: a scan uses the maps of enabled interrupts, and the list registers
that are looked up are queued and keep the bytes that lie apart from the acknowledge words. -/
def Explains (g : Gic) : Event → Prop
  | .index cpu i => ∃ entry ∈ g.enableStatus cpu, i = entry.1 / 32
  | .queued cpu v => g.Enabled cpu v
  | .updateIrq _ _ _ => True
  | .lookup cpu k entry => k ∈ g.vCpuQueue cpu ∧ ∀ i < 4, g.Apart (g.config.vDistBase + (0x100 + 4 * k) + i) →
      wordByte entry i = g.mem (g.config.vDistBase + (0x100 + 4 * k) + i)
  | .bankWrite _ _ _ => False
  | .retired _ _ => False

/-- What serving CPUs can do to the state. -/
structure Serves (g g' : Gic) : Prop where
  config : g'.config = g.config
  cpus : g'.cpus = g.cpus
  vCpuQueue : g'.vCpuQueue = g.vCpuQueue
  interruptOrigins : g'.interruptOrigins = g.interruptOrigins
  pendingInterrupts : g'.pendingInterrupts = g.pendingInterrupts
  enableStatus : g'.enableStatus = g.enableStatus
  roundRobin : g'.roundRobin = g.roundRobin
  stack : g'.stack = g.stack
  mem : ∀ a, g'.Quiet a → g'.mem a = g.mem a
  cpuQueue : ∀ c, ∃ new, g'.cpuQueue c = g.cpuQueue c ++ new ∧ ∀ v ∈ new, g.Enabled c v
  nodup : ∀ c, (g.cpuQueue c).Nodup → (g'.cpuQueue c).Nodup
  log : ∃ new, g'.log = new ++ g.log ∧ ∀ e ∈ new, g.Explains e

theorem Serves.refl (g : Gic) : Serves g g where
  config := rfl
  cpus := rfl
  vCpuQueue := rfl
  interruptOrigins := rfl
  pendingInterrupts := rfl
  enableStatus := rfl
  roundRobin := rfl
  stack := rfl
  mem _ _ := rfl
  cpuQueue c := ⟨[], (List.append_nil _).symm, by simp⟩
  nodup _ h := h
  log := ⟨[], rfl, by simp⟩

theorem Serves.enabled_iff (h : Serves g g') {v : Word} : g'.Enabled cpu v ↔ g.Enabled cpu v := by
  unfold Enabled ackValue
  rw [h.enableStatus, h.interruptOrigins]

theorem Serves.apart_iff (h : Serves g g') {a : ℕ} : g'.Apart a ↔ g.Apart a := by
  unfold Apart
  rw [h.cpus, h.config]

theorem Serves.explains (h : Serves g g') {e : Event} (he : g'.Explains e) : g.Explains e := by
  cases e with
  | index cpu i => simpa only [Explains, h.enableStatus] using he
  | queued cpu v => exact h.enabled_iff.mp he
  | updateIrq cpu line level => trivial
  | lookup cpu k entry =>
    obtain ⟨hk, hbytes⟩ := he
    rw [h.vCpuQueue] at hk
    rw [h.config] at hbytes
    refine ⟨hk, fun i hi hapart => ?_⟩
    have hapart' := h.apart_iff.mpr hapart
    rw [hbytes i hi hapart', h.mem _ hapart'.quiet]
  | bankWrite cpu offset value => exact he
  | retired cpu k => exact he

theorem Serves.quiet (h : Serves g g') {a : ℕ} (hq : g'.Quiet a) : g.Quiet a := by
  intro cpu hcpu
  obtain ⟨hack, hvack⟩ := hq cpu (by rw [h.cpus]; exact hcpu)
  rw [h.config] at hack hvack
  refine ⟨fun hin => ?_, hvack⟩
  obtain ⟨new, hnew, -⟩ := h.cpuQueue cpu
  rw [hack hin] at hnew
  exact (List.append_eq_nil_iff.mp hnew.symm).1

theorem Serves.trans (h : Serves g g') (h' : Serves g' g'') : Serves g g'' where
  config := h'.config.trans h.config
  cpus := h'.cpus.trans h.cpus
  vCpuQueue := h'.vCpuQueue.trans h.vCpuQueue
  interruptOrigins := h'.interruptOrigins.trans h.interruptOrigins
  pendingInterrupts := h'.pendingInterrupts.trans h.pendingInterrupts
  enableStatus := h'.enableStatus.trans h.enableStatus
  roundRobin := h'.roundRobin.trans h.roundRobin
  stack := h'.stack.trans h.stack
  mem a ha := (h'.mem a ha).trans (h.mem a (h'.quiet ha))
  cpuQueue c := by
    obtain ⟨new, hq, hnew⟩ := h.cpuQueue c
    obtain ⟨new', hq', hnew'⟩ := h'.cpuQueue c
    refine ⟨new ++ new', by rw [hq', hq, List.append_assoc], fun v hv => ?_⟩
    rcases List.mem_append.mp hv with hv | hv
    · exact hnew v hv
    · exact h.enabled_iff.mp (hnew' v hv)
  nodup c hc := h'.nodup c (h.nodup c hc)
  log := by
    obtain ⟨new, hl, hnew⟩ := h.log
    obtain ⟨new', hl', hnew'⟩ := h'.log
    refine ⟨new' ++ new, by rw [hl', hl, List.append_assoc], fun e he => ?_⟩
    rcases List.mem_append.mp he with he | he
    · exact h.explains (hnew' e he)
    · exact hnew e he

/-- Recording an event that is explained only serves. -/
theorem serves_record {e : Event} (he : g.Explains e) : Serves g (g.record e) :=
  { Serves.refl g with log := ⟨[e], rfl, by simpa using he⟩ }

/-- Writing an acknowledge word of a CPU that a round may write only serves. -/
theorem serves_putWord {addr : ℕ} {w : Word} (ha : ∀ a, InBlock addr 4 a → ¬ g.Quiet a) :
    Serves g (g.putWord addr w) := by
  refine { Serves.refl g with mem := fun a hquiet => storeWord_frame ?_ }
  by_contra hin
  exact ha a ⟨by omega, by omega⟩ hquiet

/-- Queueing an interrupt that is enabled and not yet queued only serves. -/
theorem serves_pushCpu {v : Word} (hen : g.Enabled cpu v) (hnot : v ∉ g.cpuQueue cpu) :
    Serves g (g.pushCpu cpu v) := by
  refine { Serves.refl g with mem := fun _ _ => rfl, cpuQueue := fun c => ?_, nodup := fun c hc => ?_ }
  · by_cases hcpu : c = cpu
    · subst hcpu
      exact ⟨[v], by simp, by simpa using hen⟩
    · exact ⟨[], by simp [hcpu], by simp⟩
  · by_cases hcpu : c = cpu
    · subst hcpu
      rw [pushCpu_cpuQueue, if_pos rfl, List.nodup_append]
      exact ⟨hc, List.nodup_singleton v, fun a ha b hb hab => hnot (by simp_all)⟩
    · rw [pushCpu_cpuQueue, if_neg hcpu]
      exact hc

theorem serves_serveEntry {entry : ℕ × Bool} (hentry : entry ∈ g.enableStatus cpu) :
    Serves g (serveEntry cpu g entry) := by
  have hrec : Serves g (g.record (.index cpu (entry.1 / 32))) :=
    serves_record ⟨entry, hentry, rfl⟩
  unfold serveEntry
  dsimp only
  split
  · exact hrec
  · split
    · split
      · rename_i hen
        have henabled : (g.record (.index cpu (entry.1 / 32))).Enabled cpu
            ((g.record (.index cpu (entry.1 / 32))).ackValue cpu entry.1) := ⟨entry.1, hen, rfl⟩
        split
        · exact hrec
        · rename_i hnot
          exact hrec.trans ((serves_pushCpu henabled hnot).trans (serves_record henabled))
      · exact hrec
    · exact hrec

/-- The scan of the map of one CPU only serves. -/
theorem serves_scan (entries : List (ℕ × Bool)) (h : ∀ e ∈ entries, e ∈ g.enableStatus cpu) :
    Serves g (entries.foldl (serveEntry cpu) g) := by
  induction entries generalizing g with
  | nil => exact Serves.refl g
  | cons entry entries ih =>
    have hfirst := serves_serveEntry (h entry List.mem_cons_self)
    apply hfirst.trans
    apply ih
    intro e he
    rw [hfirst.enableStatus]
    exact h e (List.mem_cons_of_mem _ he)

theorem serves_presentPhysical (hcpu : cpu ∈ g.cpus) : Serves g (g.presentPhysical cpu) := by
  unfold presentPhysical
  split
  · exact serves_record trivial
  · rename_i front rest hqueue
    refine (serves_putWord fun a hin hquiet => ?_).trans (serves_record trivial)
    rw [(hquiet cpu hcpu).1 hin] at hqueue
    cases hqueue

theorem serves_presentVirtual (hcpu : cpu ∈ g.cpus) : Serves g (g.presentVirtual cpu) := by
  unfold presentVirtual
  split
  · exact serves_record trivial
  · rename_i k rest hqueue
    have hlookup : g.Explains (.lookup cpu k (g.getVIntEntry k)) := by
      refine ⟨by rw [hqueue]; exact List.mem_cons_self, fun i hi _ => ?_⟩
      exact wordByte_loadWord hi
    apply (serves_record hlookup).trans
    refine (serves_putWord fun a hin hquiet => ?_).trans (serves_record trivial)
    exact (hquiet cpu hcpu).2 hin

/-- Presenting the fronts of the queues of a CPU only serves. -/
theorem serves_present (hcpu : cpu ∈ g.cpus) : Serves g ((g.presentPhysical cpu).presentVirtual cpu) := by
  have hphys := serves_presentPhysical hcpu
  exact hphys.trans (serves_presentVirtual (by rw [hphys.cpus]; exact hcpu))

theorem serves_serveCpu (hcpu : cpu ∈ g.cpus) : Serves g (g.serveCpu cpu) := by
  unfold serveCpu
  split
  · exact serves_record trivial
  · have hscan := serves_scan (g := g) (g.enableStatus cpu) (fun _ he => he)
    exact hscan.trans (serves_present (by rw [hscan.cpus]; exact hcpu))

/-- A round over connected CPUs only serves. -/
theorem serves_foldl (cpus : List ℕ) (h : ∀ c ∈ cpus, c ∈ g.cpus) :
    Serves g (cpus.foldl serveCpu g) := by
  induction cpus generalizing g with
  | nil => exact Serves.refl g
  | cons cpu cpus ih =>
    have hfirst := serves_serveCpu (h cpu List.mem_cons_self)
    apply hfirst.trans
    apply ih
    intro c hc
    rw [hfirst.cpus]
    exact h c (List.mem_cons_of_mem _ hc)

/-- The combinational logic only serves. -/
theorem serves_combLogic (g : Gic) : Serves g g.combLogic :=
  serves_foldl _ fun _ hc => List.mem_rotate.mp hc

/-- After the maintenance interrupt was queued, the rest of `genMaint` only serves. -/
theorem serves_genMaint (g : Gic) (cpu : ℕ) :
    Serves (if g.config.maintIrq ∈ g.cpuQueue cpu then g else g.pushCpu cpu g.config.maintIrq)
      (g.genMaint cpu) := by
  unfold genMaint
  split
  · exact serves_combLogic g
  · exact serves_combLogic _

/-- The interrupt id is the value modulo 1024. -/
theorem interruptId_eq (v : Word) : interruptId v = v.toNat % 1024 := by
  rw [interruptId, BitVec.toNat_and]
  exact Nat.and_two_pow_sub_one_eq_mod v.toNat 10

/-- The low ten bits of what a CPU acknowledges are the interrupt. -/
theorem interruptId_ackValue {n : ℕ} (hn : n < 1024) : interruptId (g.ackValue cpu n) = n := by
  have hnat : n % 2 ^ 32 = n := Nat.mod_eq_of_lt (by omega)
  rw [interruptId_eq, ackValue]
  split
  · rw [BitVec.toNat_or, BitVec.toNat_ofNat, hnat, BitVec.toNat_shiftLeft, Nat.shiftLeft_eq]
    have hsource : (BitVec.ofNat 32 (g.interruptOrigins cpu n)).toNat * 2 ^ 10 % 2 ^ 32 % 2 ^ 10 = 0 := by
      omega
    have hor := Nat.or_mod_two_pow (a := n)
      (b := (BitVec.ofNat 32 (g.interruptOrigins cpu n)).toNat * 2 ^ 10 % 2 ^ 32) (n := 10)
    rw [hsource, Nat.mod_eq_of_lt hn, Nat.or_zero] at hor
    exact hor
  · rw [BitVec.toNat_ofNat, hnat, Nat.mod_eq_of_lt hn]

end Gic

/-! ## One operation -/

/-- A guest write that reaches a region. -/
structure GuestWrite where
  region : Region
  offset : ℕ
  value : Word
  len : ℕ
  id : ℕ
  deriving DecidableEq

/-- The write an operation makes. -/
def GicConfig.guestWrite (config : GicConfig) : GicOp → Option GuestWrite
  | .write (some id) addr value len =>
    (config.locate addr).map fun place => ⟨place.1, place.2, value, len, id⟩
  | _ => none

namespace Gic

/-- An operation that is refused or reads leaves the state alone; the others end with a round of
the combinational logic. -/
theorem wp_step {Q : Unit → Gic → Prop} {E : Failure → Gic → Prop} {g : Gic} (op : GicOp)
    (hE : ∀ e, E e g) (hQ : g.config.guestWrite op = none → (∀ val irqIdx, op ≠ .updateIrq val irqIdx) → Q () g)
    (hwrite : ∀ w, g.config.guestWrite op = some w →
      wp (writeRegion w.region w.offset w.value w.len w.id) (fun _ g' => Q () g'.combLogic) E g)
    (hline : ∀ val irqIdx, op = .updateIrq val irqIdx →
      wp (raiseLine val irqIdx) (fun _ g' => Q () g'.combLogic) E g) :
    wp (step op) Q E g := by
  cases op with
  | read cpu addr len =>
    unfold step read
    rw [wp_bind]
    cases cpu with
    | none => exact hE _
    | some id =>
      apply wp.step
      rw [wp_get]
      cases g.config.locate addr with
      | none => exact hE _
      | some place => exact hQ rfl fun _ _ h => by cases h
  | write cpu addr value len =>
    unfold step write
    cases cpu with
    | none =>
      apply wp.step
      exact hE _
    | some id =>
      apply wp.step
      rw [wp_get]
      cases hplace : g.config.locate addr with
      | none =>
        apply wp.step
        exact hE _
      | some place =>
        have hw := hwrite ⟨place.1, place.2, value, len, id⟩ (by simp [GicConfig.guestWrite, hplace])
        apply wp.step
        exact hw
  | updateIrq val irqIdx =>
    unfold step updateIrq
    apply wp.step
    exact hline val irqIdx rfl

end Gic

end Vpsim.Peripherals
