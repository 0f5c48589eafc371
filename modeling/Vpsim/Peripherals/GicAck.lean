import Vpsim.Peripherals.GicPrivate

/-!
# The acknowledge register

The acknowledge register of a CPU should show the front of its queue, or 1023 when the queue is
empty. A round writes it for every enabled CPU with a queue, and a completion that empties the
queue writes 1023. Three things break this for an empty queue: the memory is not initialised, a
guest can store over the register, and a virtual completion that takes the last physical
interrupt from the queue leaves the register as it is.
-/

namespace Vpsim.Peripherals

open Vpsim.Lib

namespace Gic

variable {g g' : Gic} {config : GicConfig} {ids : List ℕ} {c : ℕ}

/-- The acknowledge register of each CPU that is switched on shows the front of its queue or
1023, and no queue holds a value twice. -/
def AckCoherent (g : Gic) : Prop :=
  ∀ c ∈ g.cpus, g.isEnabled = true → g.cpuTakesInterrupts c = true →
    g.readCpu 0xC c = (g.cpuQueue c).headD 1023#32 ∧ (g.cpuQueue c).Nodup

/-- The acknowledge words are aligned and apart from each other and from the registers that
switch the CPUs on. -/
structure AckLayout (config : GicConfig) (ids : List ℕ) : Prop extends AckApart config ids where
  aligned : 4 ∣ config.cpuBase
  virtual : ∀ c ∈ ids, ∀ d ∈ ids, ∀ a, InBlock (ackAddr config c) 4 a → ¬ InBlock (vAckAddr config d) 4 a

/-- The register a guest reads is the word the controller writes. -/
theorem AckLayout.readCpu_eq (hlay : AckLayout config ids) (hconfig : g.config = config) (c : ℕ) :
    g.readCpu 0xC c = loadWord g.mem (ackAddr config c) := by
  have haddr : ackAddr config c = config.cpuBase + c * 0x100 + 0xC := by
    have haligned := hlay.aligned
    unfold ackAddr
    omega
  unfold readCpu
  rw [hconfig, haddr]

/-- The register that shows the current interrupt reads back. -/
theorem AckLayout.readCpu_setCurrent (hlay : AckLayout config ids) (hconfig : g.config = config) (c : ℕ) (v : Word) :
    (g.setCurrentInterruptId c v).readCpu 0xC c = v := by
  have hconfig' : (g.setCurrentInterruptId c v).config = config := hconfig
  rw [hlay.readCpu_eq hconfig']
  change loadWord (storeWord g.mem (ackAddr g.config c) v) (ackAddr config c) = v
  rw [hconfig, loadWord_storeWord]

/-- A word stored elsewhere leaves the register. -/
theorem AckLayout.readCpu_putWord (hlay : AckLayout config ids) (hconfig : g.config = config) {addr : ℕ} {w : Word}
    (h : ackAddr config c + 4 ≤ addr ∨ addr + 4 ≤ ackAddr config c) :
    (g.putWord addr w).readCpu 0xC c = g.readCpu 0xC c := by
  have hconfig' : (g.putWord addr w).config = config := hconfig
  rw [hlay.readCpu_eq hconfig', hlay.readCpu_eq hconfig]
  exact loadWord_store_frame h

/-- The acknowledge words of two CPUs do not share a byte. -/
theorem ackAddr_inj {d i : ℕ} (hi : i < 4) (h : InBlock (ackAddr config d) 4 (ackAddr config c + i)) : d = c := by
  unfold InBlock ackAddr at h
  omega

/-- The byte of the acknowledge word of a CPU is left alone while its queue is empty. -/
theorem AckLayout.quiet_iff (hlay : AckLayout config ids) (hconfig : g.config = config) (hcpus : g.cpus = ids)
    (hc : c ∈ ids) {i : ℕ} (hi : i < 4) : g.Quiet (ackAddr config c + i) ↔ g.cpuQueue c = [] := by
  have hself : InBlock (ackAddr config c) 4 (ackAddr config c + i) := by
    unfold InBlock
    omega
  constructor
  · intro hquiet
    exact (hquiet c (hcpus ▸ hc)).1 (hconfig ▸ hself)
  · intro hempty d hd
    rw [hconfig]
    refine ⟨fun hin => ?_, hlay.virtual c hc d (hcpus ▸ hd) _ hself⟩
    rw [ackAddr_inj hi hin]
    exact hempty

/-! ## Empty queues -/

/-- A CPU with an empty queue reads 1023. -/
def Idle (g : Gic) (c : ℕ) : Prop := g.cpuQueue c = [] → g.readCpu 0xC c = 1023#32

/-- A change that spares the acknowledge word keeps it at 1023. -/
theorem Idle.of_spares (h : g.Idle c) (hlay : AckLayout config ids) (hconfig : g.config = config) (hcpus : g.cpus = ids)
    (hc : c ∈ ids) (hs : ∀ i < 4, Spares config (ackAddr config c + i) g g') : g'.Idle c := by
  intro hempty
  obtain ⟨hconfig', hcpus', -⟩ := hs 0 (by omega) hconfig
  have hbyte : ∀ i < 4, g.cpuQueue c = [] ∧ g'.mem (ackAddr config c + i) = g.mem (ackAddr config c + i) := by
    intro i hi
    have hquiet := (hlay.quiet_iff hconfig' (hcpus'.trans hcpus) hc hi).mpr hempty
    obtain ⟨hquiet', hmem⟩ := (hs i hi hconfig).2.2 hquiet
    exact ⟨(hlay.quiet_iff hconfig hcpus hc hi).mp hquiet', hmem⟩
  have hidle := h (hbyte 0 (by omega)).1
  rw [hlay.readCpu_eq hconfig] at hidle
  rw [hlay.readCpu_eq hconfig', ← hidle]
  exact loadWord_congr fun i hi => (hbyte i hi).2

/-! ## Rounds -/

/-- A CPU that is switched on reads the front of its queue. -/
def Presented (g : Gic) (c : ℕ) : Prop :=
  g.isEnabled = true → g.cpuTakesInterrupts c = true → ∀ front rest, g.cpuQueue c = front :: rest →
    g.readCpu 0xC c = front

/-- A scan changes the queue of one CPU only, and no memory. -/
theorem scan_frame (cpu : ℕ) (entries : List (ℕ × Bool)) (g : Gic) :
    (entries.foldl (serveEntry cpu) g).mem = g.mem ∧
      ∀ c ≠ cpu, (entries.foldl (serveEntry cpu) g).cpuQueue c = g.cpuQueue c := by
  induction entries generalizing g with
  | nil => exact ⟨rfl, fun _ _ => rfl⟩
  | cons entry entries ih =>
    obtain ⟨hmem, hqueue⟩ := ih (serveEntry cpu g entry)
    have hentry : (serveEntry cpu g entry).mem = g.mem ∧
        ∀ c ≠ cpu, (serveEntry cpu g entry).cpuQueue c = g.cpuQueue c := by
      unfold serveEntry
      dsimp only
      split
      · exact ⟨rfl, fun _ _ => rfl⟩
      · split
        · split
          · split
            · exact ⟨rfl, fun _ _ => rfl⟩
            · refine ⟨rfl, fun c hc => ?_⟩
              exact (pushCpu_cpuQueue _ cpu _ c).trans (if_neg hc)
          · exact ⟨rfl, fun _ _ => rfl⟩
        · exact ⟨rfl, fun _ _ => rfl⟩
    rw [List.foldl_cons]
    exact ⟨hmem.trans hentry.1, fun c hc => (hqueue c hc).trans (hentry.2 c hc)⟩

/-- The words a round writes for another CPU are apart from the acknowledge word of `c`. -/
theorem AckLayout.words_apart (hlay : AckLayout config ids) {d : ℕ} (hc : c ∈ ids) (hd : d ∈ ids) :
    ackAddr config c + 4 ≤ vAckAddr config d ∨ vAckAddr config d + 4 ≤ ackAddr config c := by
  have h1 := hlay.virtual c hc d hd (ackAddr config c)
  have h2 := hlay.virtual c hc d hd (vAckAddr config d)
  unfold InBlock at h1 h2
  omega

/-- The virtual line of a CPU leaves queues and acknowledge words alone. -/
theorem presentVirtual_frame (hlay : AckLayout config ids) (hconfig : g.config = config) {d : ℕ} (hc : c ∈ ids)
    (hd : d ∈ ids) : (g.presentVirtual d).cpuQueue = g.cpuQueue ∧ (g.presentVirtual d).readCpu 0xC c = g.readCpu 0xC c := by
  unfold presentVirtual
  split
  · exact ⟨rfl, rfl⟩
  · refine ⟨rfl, ?_⟩
    dsimp only
    change (g.putWord (vAckAddr g.config d) _).readCpu 0xC c = g.readCpu 0xC c
    apply hlay.readCpu_putWord hconfig
    rw [hconfig]
    exact hlay.words_apart hc hd

/-- The physical line of another CPU leaves the queue and the acknowledge word of `c` alone. -/
theorem presentPhysical_frame (hlay : AckLayout config ids) (hconfig : g.config = config) {d : ℕ} (hne : c ≠ d) :
    (g.presentPhysical d).cpuQueue = g.cpuQueue ∧ (g.presentPhysical d).readCpu 0xC c = g.readCpu 0xC c := by
  unfold presentPhysical
  split
  · exact ⟨rfl, rfl⟩
  · refine ⟨rfl, ?_⟩
    change (g.putWord (ackAddr g.config d) _).readCpu 0xC c = g.readCpu 0xC c
    apply hlay.readCpu_putWord hconfig
    rw [hconfig]
    unfold ackAddr
    omega

/-- Serving a CPU shows the front of its queue. -/
theorem presented_serveCpu (hlay : AckLayout config ids) (hconfig : g.config = config) (hcpus : g.cpus = ids)
    (hc : c ∈ ids) : (g.serveCpu c).Presented c := by
  intro hen htakes front rest hqueue
  obtain ⟨hen', htakes'⟩ := (serves_serveCpu (hcpus ▸ hc)).control_eq hconfig hcpus hlay.toAckApart hc
  rw [hen'] at hen
  rw [htakes'] at htakes
  unfold serveCpu at hqueue ⊢
  rw [if_neg (by simp [hen, htakes])] at hqueue ⊢
  have hscan : Serves g ((g.enableStatus c).foldl (serveEntry c) g) := serves_scan _ fun _ he => he
  generalize (g.enableStatus c).foldl (serveEntry c) g = g₁ at hqueue hscan ⊢
  have hphys := serves_presentPhysical (g := g₁) (by rw [hscan.cpus, hcpus]; exact hc)
  have hconfig₁ := hscan.config.trans hconfig
  obtain ⟨hqueues, hread⟩ := presentVirtual_frame hlay (hphys.config.trans hconfig₁) hc hc
  rw [hqueues] at hqueue
  rw [hread]
  unfold presentPhysical at hqueue ⊢
  cases hfirst : g₁.cpuQueue c with
  | nil =>
    simp only [hfirst] at hqueue
    exact absurd (hfirst.symm.trans hqueue) (by simp)
  | cons v vs =>
    simp only [hfirst] at hqueue ⊢
    cases hfirst.symm.trans hqueue
    exact hlay.readCpu_setCurrent hconfig₁ c front

/-- Serving another CPU keeps what is shown. -/
theorem Presented.serveCpu (h : g.Presented c) (hlay : AckLayout config ids) (hconfig : g.config = config)
    (hcpus : g.cpus = ids) (hc : c ∈ ids) {d : ℕ} (hd : d ∈ ids) : (g.serveCpu d).Presented c := by
  by_cases hne : c = d
  · subst hne
    exact presented_serveCpu hlay hconfig hcpus hc
  · intro hen htakes front rest hqueue
    obtain ⟨hen', htakes'⟩ := (serves_serveCpu (hcpus ▸ hd)).control_eq hconfig hcpus hlay.toAckApart hc
    have hshown := h (hen' ▸ hen) (htakes' ▸ htakes)
    unfold Gic.serveCpu at hqueue ⊢
    split at hqueue
    · rename_i hoff
      rw [if_pos hoff]
      exact hshown front rest hqueue
    · rename_i hon
      rw [if_neg hon]
      have hscan : Serves g ((g.enableStatus d).foldl (serveEntry d) g) := serves_scan _ fun _ he => he
      obtain ⟨hmem, hkeep⟩ := scan_frame d (g.enableStatus d) g
      generalize (g.enableStatus d).foldl (serveEntry d) g = g₁ at hqueue hscan hmem hkeep ⊢
      have hphys := serves_presentPhysical (g := g₁) (by rw [hscan.cpus, hcpus]; exact hd)
      have hconfig₁ := hscan.config.trans hconfig
      obtain ⟨hq₂, hr₂⟩ := presentVirtual_frame hlay (hphys.config.trans hconfig₁) hc hd
      obtain ⟨hq₁, hr₁⟩ := presentPhysical_frame hlay hconfig₁ hne
      rw [hq₂, hq₁, hkeep c hne] at hqueue
      rw [hr₂, hr₁, ← hshown front rest hqueue]
      unfold readCpu
      rw [hmem, hscan.config]

/-- A round shows the front of every queue. -/
theorem presented_combLogic (hlay : AckLayout config ids) (hconfig : g.config = config) (hcpus : g.cpus = ids)
    (hc : c ∈ ids) : g.combLogic.Presented c := by
  have hmem : c ∈ g.cpus.rotate (g.roundRobin + 1) := by
    rw [List.mem_rotate, hcpus]
    exact hc
  have hsub : ∀ d ∈ g.cpus.rotate (g.roundRobin + 1), d ∈ ids := fun d hd => hcpus ▸ List.mem_rotate.mp hd
  unfold combLogic
  generalize g.cpus.rotate (g.roundRobin + 1) = order at hmem hsub ⊢
  -- what is shown stays shown while the rest of the CPUs are served
  have hkeep : ∀ (order : List ℕ) (g : Gic), (∀ d ∈ order, d ∈ ids) → g.config = config → g.cpus = ids →
      g.Presented c → (order.foldl Gic.serveCpu g).Presented c := by
    intro order
    induction order with
    | nil => exact fun g _ _ _ h => h
    | cons d order ih =>
      intro g hsub hconfig hcpus h
      have hd := hsub d List.mem_cons_self
      have hserve := serves_serveCpu (g := g) (hcpus ▸ hd)
      exact ih _ (fun e he => hsub e (List.mem_cons_of_mem _ he)) (hserve.config.trans hconfig)
        (hserve.cpus.trans hcpus) (h.serveCpu hlay hconfig hcpus hc hd)
  induction order generalizing g with
  | nil => cases hmem
  | cons d order ih =>
    have hd := hsub d List.mem_cons_self
    have hserve := serves_serveCpu (g := g) (hcpus ▸ hd)
    have hsub' : ∀ e ∈ order, e ∈ ids := fun e he => hsub e (List.mem_cons_of_mem _ he)
    rw [List.foldl_cons]
    rcases List.mem_cons.mp hmem with rfl | hmem
    · exact hkeep order _ hsub' (hserve.config.trans hconfig) (hserve.cpus.trans hcpus)
        (presented_serveCpu hlay hconfig hcpus hc)
    · exact ih (hserve.config.trans hconfig) (hserve.cpus.trans hcpus) hmem hsub'

/-! ## Queues over a write -/

/-- A queue that holds something still does. -/
def StaysBusy (c : ℕ) (g g' : Gic) : Prop := g.cpuQueue c ≠ [] → g'.cpuQueue c ≠ []

instance : IsPreorder Gic (StaysBusy c) where
  refl _ h := h
  trans _ _ _ h h' hbusy := h' (h hbusy)

/-- No queue holds a value twice. -/
def Distinct (g : Gic) : Prop := ∀ c, (g.cpuQueue c).Nodup

/-- No queue comes to hold a value twice. -/
def StaysDistinct (g g' : Gic) : Prop := g.Distinct → g'.Distinct

instance : IsPreorder Gic StaysDistinct where
  refl _ h := h
  trans _ _ _ h h' hdist := h' (h hdist)

theorem Serves.staysBusy (h : Serves g g') : StaysBusy c g g' := by
  intro hbusy hempty
  obtain ⟨new, hnew, -⟩ := h.cpuQueue c
  rw [hempty] at hnew
  exact hbusy (List.append_eq_nil_iff.mp hnew.symm).1

theorem staysBusy_pushCpu (g : Gic) (cpu : ℕ) (v : Word) : StaysBusy c g (g.pushCpu cpu v) := by
  intro hbusy
  rw [pushCpu_cpuQueue]
  split
  · exact List.append_ne_nil_of_right_ne_nil _ (List.cons_ne_nil _ _)
  · exact hbusy

/-- A completion for another CPU leaves the queue of a CPU as it is. -/
theorem staysBusy_popCpu {cpu : ℕ} (hne : cpu ≠ c) (g : Gic) : StaysBusy c g (g.popCpu cpu) := by
  intro hbusy
  rw [popCpu_cpuQueue, if_neg hne.symm]
  exact hbusy

theorem staysBusy_of_eq (g g' : Gic) (heq : g'.cpuQueue = g.cpuQueue) : StaysBusy c g g' := by
  unfold StaysBusy
  rw [heq]
  exact id

theorem staysBusy_nextVirtual (g : Gic) (id : ℕ) : StaysBusy c g ((g.popVCpu id).nextVirtual id) :=
  queue_nextVirtual staysBusy_of_eq (fun _ _ h => h.staysBusy) (fun g cpu v _ => staysBusy_pushCpu g cpu v) g id

theorem staysDistinct_pushCpu (g : Gic) (cpu : ℕ) (v : Word) (hv : v ∉ g.cpuQueue cpu) :
    StaysDistinct g (g.pushCpu cpu v) := by
  intro hdist c
  rw [pushCpu_cpuQueue]
  split
  · rw [← List.concat_eq_append]
    exact List.Nodup.concat hv (hdist cpu)
  · exact hdist c

theorem staysDistinct_popCpu (g : Gic) (cpu : ℕ) : StaysDistinct g (g.popCpu cpu) := by
  intro hdist c
  rw [popCpu_cpuQueue]
  split
  · exact (hdist cpu).tail
  · exact hdist c

/-- No guest write puts a value into a queue twice. -/
theorem staysDistinct_writeRegion (g : Gic) (w : GuestWrite) :
    wp (writeRegion w.region w.offset w.value w.len w.id) (fun _ => StaysDistinct g) (fun _ => StaysDistinct g) g := by
  apply wp_queue_writeRegion
  · intro g g' heq hdist c
    rw [heq]
    exact hdist c
  · exact fun g g' h hdist c => h.nodup c (hdist c)
  · exact staysDistinct_pushCpu
  · exact fun _ _ g' => staysDistinct_popCpu g' w.id
  · exact fun _ _ _ _ _ _ _ g' => staysDistinct_popCpu g' w.id

/-! ## Completions -/

/-- A completion that empties the queue writes 1023. -/
theorem idle_completeInterrupt (hlay : AckLayout config ids) (hconfig : g.config = config) (value : Word) :
    wp (completeInterrupt value c) (fun _ g' => g'.Idle c) (fun _ _ => True) g := by
  apply wp.step
  rw [wp_get]
  split
  · trivial
  · rename_i front rest hqueue
    apply wp.step
    rw [wp_setInterruptPending]
    split
    · split
      · apply wp.step
        rw [wp_modify]
        have htail : ∀ g' : Gic, g'.cpuQueue = g.cpuQueue → (g'.popCpu c).cpuQueue c = rest := by
          intro g' heq
          rw [popCpu_cpuQueue, if_pos rfl, heq, hqueue, List.tail_cons]
        unfold showNext
        split
        · rename_i next tail
          apply wp.step
          rw [wp_setInterruptPending]
          split
          · rw [wp_modify]
            intro hempty
            exact absurd ((htail ((g.record _).putPending c (interruptId value) 0#32) rfl).symm.trans hempty) (by simp)
          · trivial
        · rw [wp_modify]
          intro _
          exact hlay.readCpu_setCurrent hconfig c 1023#32
      · trivial
    · trivial

/-- The end of a virtual interrupt with a physical one behind it leaves the rest of the queue. -/
theorem busy_completeVirtual (value : Word) (hlen : (g.cpuQueue c).length ≠ 1)
    (hhw : ∀ k rest, g.vCpuQueue c = k :: rest → entryHw (g.getVIntEntry k)) :
    wp (completeVirtual value c) (fun _ g' => g'.cpuQueue c ≠ []) (fun _ _ => True) g := by
  apply wp.step
  rw [wp_get]
  split
  · trivial
  · rename_i k rest hqueue
    dsimp only
    apply wp.step
    rw [wp_modify]
    split
    · apply wp.step
      rw [wp_modify]
      apply wp.step
      unfold endEntry
      rw [if_pos (hhw k rest hqueue)]
      apply wp.step
      rw [wp_setInterruptPending]
      split
      · apply wp.step
        rw [wp_get]
        have hsame : ((((g.record (.lookup c k (g.getVIntEntry k))).retireEntry c k).record
            (.index c (interruptId value / 32))).putPending c (interruptId value) 0#32).cpuQueue = g.cpuQueue := rfl
        rw [hsame]
        split
        · trivial
        · rename_i front tail hfront
          split
          · rw [wp_modify, wp_modify]
            apply staysBusy_nextVirtual
            rw [popCpu_cpuQueue, if_pos rfl, hsame, hfront, List.tail_cons]
            rintro rfl
            exact hlen (by rw [hfront, List.length_singleton])
          · trivial
      · trivial
    · trivial

/-! ## One operation -/

/-- A guest write does not disturb the acknowledge register of a CPU with an empty queue: it does
not store over it, and the end of a virtual interrupt does not take the last physical interrupt
from the queue. -/
structure SparesAck (g : Gic) (w : GuestWrite) : Prop where
  stores : ¬ (w.region = .cpu ∧ isCompletion w.offset) → ∀ c ∈ g.cpus, g.cpuQueue c = [] →
    ∀ i < 4, ¬ w.Stores g.config (ackAddr g.config c + i)
  virtual : w.region = .vCpu → isCompletion w.offset → g.Effective g.config.vCpuBase w.offset w.id →
    ∀ k rest, g.vCpuQueue w.id = k :: rest → entryHw (g.getVIntEntry k) → (g.cpuQueue w.id).length ≠ 1

/-- After a guest write a CPU with an empty queue reads 1023. -/
theorem idle_writeRegion (hlay : AckLayout config ids) (hconfig : g.config = config) (hcpus : g.cpus = ids)
    (hc : c ∈ ids) {w : GuestWrite} (hspares : g.SparesAck w) (h : g.Idle c) :
    wp (writeRegion w.region w.offset w.value w.len w.id) (fun _ g' => g'.Idle c) (fun _ _ => True) g := by
  by_cases hown : w.region = .cpu ∧ isCompletion w.offset ∧ w.id = c
  · -- the completion of `c` itself
    obtain ⟨hregion, hoff, rfl⟩ := hown
    rw [hregion]
    unfold writeRegion writeCpu
    dsimp only
    apply wp.step
    rw [wp_get, if_pos hoff]
    split
    · exact idle_completeInterrupt hlay hconfig w.value
    · exact h
  · by_cases hhw : w.region = .vCpu ∧ isCompletion w.offset ∧ w.id = c ∧
        g.Effective g.config.vCpuBase w.offset w.id ∧
        ∃ k rest, g.vCpuQueue w.id = k :: rest ∧ entryHw (g.getVIntEntry k)
    · -- the end of a virtual interrupt with a physical one behind it
      obtain ⟨hregion, hoff, rfl, heff, k, rest, hqueue, hentry⟩ := hhw
      have hlen := hspares.virtual hregion hoff heff k rest hqueue hentry
      unfold Effective at heff
      rw [hregion]
      unfold writeRegion writeVCpu
      dsimp only
      apply wp.step
      rw [wp_get, if_pos hoff, if_pos heff]
      refine (busy_completeVirtual w.value hlen ?_).mono fun _ g' hbusy hempty => absurd hempty hbusy
      intro k' rest' hqueue'
      cases hqueue.symm.trans hqueue'
      exact hentry
    · have hother : w.region = .vCpu → isCompletion w.offset → g.Effective g.config.vCpuBase w.offset w.id →
          ∀ k rest, g.vCpuQueue w.id = k :: rest → entryHw (g.getVIntEntry k) → w.id ≠ c :=
        fun hregion hoff heff k rest hqueue hentry hid =>
          hhw ⟨hregion, hoff, hid, heff, k, rest, hqueue, hentry⟩
      by_cases hempty : g.cpuQueue c = []
      · have hspare : ∀ i < 4, wp (writeRegion w.region w.offset w.value w.len w.id)
            (fun _ => Spares config (ackAddr config c + i) g) (fun _ => Spares config (ackAddr config c + i) g) g := by
          intro i hi
          apply wp_spares_writeRegion
          · by_cases hcomp : w.region = .cpu ∧ isCompletion w.offset
            · intro hstore
              unfold GuestWrite.Stores at hstore
              simp only [hcomp.1, hcomp.2, if_true] at hstore
              exact hown ⟨hcomp.1, hcomp.2, ackAddr_inj hi hstore⟩
            · have hout := hspares.stores hcomp c (hcpus ▸ hc) hempty i hi
              rwa [hconfig] at hout
          · intro hregion hoff heff k rest hqueue hentry hin
            exact hother hregion hoff heff k rest hqueue hentry (ackAddr_inj hi hin)
        have hrun : wp (writeRegion w.region w.offset w.value w.len w.id)
            (fun _ g' => ∀ i < 4, Spares config (ackAddr config c + i) g g') (fun _ _ => True) g := by
          unfold wp at hspare ⊢
          split
          · rename_i a s' heq
            intro i hi
            have := hspare i hi
            rwa [heq] at this
          · trivial
        exact hrun.mono fun _ g' hs => h.of_spares hlay hconfig hcpus hc hs
      · have hbusy : wp (writeRegion w.region w.offset w.value w.len w.id) (fun _ => StaysBusy c g)
            (fun _ => StaysBusy c g) g := by
          apply wp_queue_writeRegion staysBusy_of_eq (fun _ _ h => h.staysBusy)
            (fun g cpu v _ => staysBusy_pushCpu g cpu v)
          · intro hregion hoff
            exact staysBusy_popCpu fun hid => hown ⟨hregion, hoff, hid⟩
          · intro hregion hoff heff k rest hqueue hentry
            exact staysBusy_popCpu (hother hregion hoff heff k rest hqueue hentry)
        unfold wp at hbusy ⊢
        split at hbusy
        · exact fun hempty' => absurd hempty' (hbusy hempty)
        · trivial

/-- No guest write changes the configuration or the CPUs. -/
theorem shape_writeRegion (hconfig : g.config = config) (hcpus : g.cpus = ids) (w : GuestWrite) :
    wp (writeRegion w.region w.offset w.value w.len w.id) (fun _ g' => g'.config = config ∧ g'.cpus = ids)
      (fun _ g' => g'.config = config ∧ g'.cpus = ids) g := by
  refine wp_writeRegion_status ?_ ⟨hconfig, hcpus⟩ w ?_ ?_
  · exact fun g g' h hs => ⟨hs.config.trans h.1, hs.cpus.trans h.2⟩
  · intro _ hlow hhigh
    obtain ⟨mem, map, heq, -⟩ := enableBits_spec g hlow hhigh w.value w.id
    rw [heq]
    exact ⟨hconfig, hcpus⟩
  · intro _ hlow hhigh
    obtain ⟨mem, map, heq, -⟩ := disableBits_spec g hlow hhigh w.value w.id
    rw [heq]
    exact ⟨hconfig, hcpus⟩

/-- What holds between operations. -/
structure AckInv (config : GicConfig) (ids : List ℕ) (g : Gic) : Prop where
  config : g.config = config
  cpus : g.cpus = ids
  idle : ∀ c ∈ ids, g.Idle c
  presented : ∀ c ∈ ids, g.Presented c
  distinct : g.Distinct

/-- The invariant gives the coherence of the acknowledge registers. -/
theorem AckInv.ackCoherent (h : AckInv config ids g) : g.AckCoherent := by
  intro c hc hen htakes
  rw [h.cpus] at hc
  refine ⟨?_, h.distinct c⟩
  cases hqueue : g.cpuQueue c with
  | nil => exact h.idle c hc hqueue
  | cons front rest => exact h.presented c hc hen htakes front rest hqueue

/-- A round makes the invariant whole again. -/
theorem ackInv_combLogic (hlay : AckLayout config ids) (hconfig : g.config = config) (hcpus : g.cpus = ids)
    (hidle : ∀ c ∈ ids, g.Idle c) (hdist : g.Distinct) : AckInv config ids g.combLogic := by
  have hserve := serves_combLogic g
  constructor
  · exact hserve.config.trans hconfig
  · exact hserve.cpus.trans hcpus
  · intro c hc
    exact (hidle c hc).of_spares hlay hconfig hcpus hc fun _ _ => hserve.spares
  · intro c hc
    exact presented_combLogic hlay hconfig hcpus hc
  · intro c
    exact hserve.nodup c (hdist c)

/-- One operation keeps the invariant. -/
theorem AckInv.step (h : AckInv config ids g) (hlay : AckLayout config ids) {op : GicOp}
    (hcond : ∀ w, g.config.guestWrite op = some w → g.SparesAck w) :
    wp (Gic.step op) (fun _ => AckInv config ids) (fun _ _ => True) g := by
  apply wp_step op (fun _ => trivial) fun _ _ => h
  · intro w hw
    have hidle := fun c hc => idle_writeRegion hlay h.config h.cpus hc (hcond w hw) (h.idle c hc)
    have hshape := shape_writeRegion h.config h.cpus w
    have hdist := staysDistinct_writeRegion g w
    cases hrun : writeRegion w.region w.offset w.value w.len w.id g with
    | error e g' =>
      unfold wp
      rw [hrun]
      trivial
    | ok u g' =>
      obtain ⟨hconfig, hcpus⟩ := hshape.of_ok hrun
      unfold wp
      rw [hrun]
      exact ackInv_combLogic hlay hconfig hcpus (fun c hc => (hidle c hc).of_ok hrun) (hdist.of_ok hrun h.distinct)
  · intro val irqIdx _
    have hqueue : wp (raiseLine val irqIdx) (fun _ => StaysDistinct g) (fun _ => StaysDistinct g) g :=
      wp_raiseLine (fun _ _ _ hdist => hdist) (fun _ _ _ hdist => hdist) fun _ _ _ _ _ hdist => hdist
    have hspares : ∀ c ∈ ids, ∀ i < 4, Keeps (Spares config (ackAddr config c + i)) (raiseLine val irqIdx) := by
      intro c hc i hi
      apply keeps_spares_raiseLine
      intro hlow haddr
      have hout := hlay.dist c hc (ackAddr config c + i) (Or.inl ⟨Nat.le_add_right _ _, by omega⟩)
      omega
    cases hrun : raiseLine val irqIdx g with
    | error e g' =>
      unfold wp
      rw [hrun]
      trivial
    | ok u g' =>
      obtain ⟨hconfig, hcpus⟩ := (keeps_steady_raiseLine val irqIdx g).of_ok hrun
      unfold wp
      rw [hrun]
      apply ackInv_combLogic hlay (hconfig.trans h.config) (hcpus.trans h.cpus)
      · intro c hc
        exact (h.idle c hc).of_spares hlay h.config h.cpus hc fun i hi => (hspares c hc i hi g).of_ok hrun
      · exact hqueue.of_ok hrun h.distinct

/-! ## Runs -/

/-- In every run on a memory that starts with 1023 in the acknowledge registers and whose writes
spare the registers of the CPUs with an empty queue, the registers show the front of the queues. -/
theorem ackCoherent_of_sparesAck (config : GicConfig) (mem : ByteMemory) (behind : ℕ → ℕ → Word)
    (stack : ℕ → BitVec 8) (ids : List ℕ) (ops : List GicOp) (s : Gic) (hlay : AckLayout config ids)
    (hstart : ∀ c ∈ ids, (start config mem behind stack ids).readCpu 0xC c = 1023#32)
    (hcond : Along step (fun g op => ∀ w, g.config.guestWrite op = some w → g.SparesAck w)
      (start config mem behind stack ids) ops)
    (hrun : runAll ops (start config mem behind stack ids) = .ok () s) : s.AckCoherent := by
  obtain ⟨hconfig, hcpus, -, -, hqueue, -⟩ := start_spec config mem behind stack ids
  have hinv : AckInv config ids (start config mem behind stack ids) := by
    constructor
    · exact hconfig
    · exact hcpus
    · exact fun c hc _ => hstart c hc
    · intro c _ _ _ front rest hfront
      rw [hqueue] at hfront
      cases hfront
    · intro c
      rw [hqueue]
      exact List.nodup_nil
  have hall : wp (runAll ops) (fun _ => AckInv config ids) (fun _ _ => True) (start config mem behind stack ids) :=
    hcond.wp_forM (fun _ _ _ h hcond => h.step hlay hcond) hinv
  exact (hall.of_ok hrun).ackCoherent

/-- The small controller with 1023 in the acknowledge register of CPU 0. -/
def ready : Gic :=
  start (small [0]).config (fun a => if a = 0x100C then 0xFF#8 else if a = 0x100D then 3#8 else 0#8)
    (fun _ _ => 0#32) (fun _ => 0#8) [0]

/-- In the small controller the acknowledge word of CPU 0 lies apart from what else is stored. -/
theorem ackLayout_small : AckLayout (small [0]).config [0] := by
  have hack : ackAddr (small [0]).config 0 = 0x100C := by decide +kernel
  have hvAck : vAckAddr (small [0]).config 0 = 0x200C := by decide +kernel
  refine ⟨⟨?_, ?_⟩, ?_, ?_⟩
  · intro c hc a hin
    change ¬ (0 ≤ a + 3 ∧ a < 0 + 0x1000)
    rw [List.mem_singleton.mp hc, hack, hvAck] at hin
    unfold InBlock at hin
    omega
  · intro c hc d hd a hin
    rw [List.mem_singleton.mp hc, hack, hvAck] at hin
    rw [List.mem_singleton.mp hd]
    change ¬ (0x1000 + 0x100 * 0 ≤ a + 3 ∧ a < 0x1000 + 0x100 * 0 + 8)
    unfold InBlock at hin
    omega
  · change 4 ∣ 0x1000
    omega
  · intro c hc d hd a hin
    rw [List.mem_singleton.mp hc, hack] at hin
    rw [List.mem_singleton.mp hd, hvAck]
    unfold InBlock at hin ⊢
    omega

/-- Interrupt 33 is enabled and its line is raised. -/
theorem ackCoherent_one_line :
    (endState (runAll (enable33 ++ [.updateIrq 1#64 33#32]) ready)).AckCoherent := by
  have hack : ackAddr (small [0]).config 0 = 0x100C := by decide +kernel
  refine ackCoherent_of_sparesAck _ _ _ _ _ _ _ ackLayout_small ?_ ?_ (eq_ok_endState (by decide +kernel))
  · intro c hc
    rw [List.mem_singleton.mp hc]
    decide +kernel
  · apply along_of_enabledBelow _ (enabledBelow_start _ _ _ _ _)
    intro g hg op hop w hw
    rw [hg.config] at hw
    constructor
    · intro _ c hc _ i hi hstores
      rw [hg.cpus] at hc
      rw [List.mem_singleton.mp hc, hg.config, hack] at hstores
      simp only [enable33, List.cons_append, List.nil_append, List.mem_cons, List.not_mem_nil, or_false] at hop
      rcases hop with rfl | rfl | rfl | rfl | rfl
      · cases hw
        have hin : InBlock (0 + 0) 4 (0x100C + i) := hstores
        unfold InBlock at hin
        omega
      · cases hw
        have hin : InBlock (0x1000 + 0 + 0 * 0x100) 4 (0x100C + i) := hstores
        unfold InBlock at hin
        omega
      · cases hw
        have hin : InBlock (0 + 0x820) 4 (0x100C + i) := hstores
        unfold InBlock at hin
        omega
      · cases hw
        have hin : InBlock (0 + 0x100) 0x100 (0x100C + i) := hstores
        unfold InBlock at hin
        omega
      · cases hw
    · intro hregion
      simp only [enable33, List.cons_append, List.nil_append, List.mem_cons, List.not_mem_nil, or_false] at hop
      rcases hop with rfl | rfl | rfl | rfl | rfl
      · cases hw
        cases hregion
      · cases hw
        cases hregion
      · cases hw
        cases hregion
      · cases hw
        cases hregion
      · cases hw

/-- Interrupt 33 is delivered to CPU 0, which forwards it to its guest with a hardware entry; the
line falls and the guest ends the interrupt. -/
def forward33 : List GicOp :=
  [.updateIrq 1#64 33#32, .write (some 0) 0x10100#64 0x90008421#32 4, .updateIrq 0#64 33#32,
   .write (some 0) 0x2010#64 33#32 4]

/-- The guest's completion takes interrupt 33 from the queue of CPU 0 and leaves it in the
acknowledge register. -/
theorem ack_stale_after_virtual_end :
    returns (runAll (enable33 ++ forward33) ready) = true ∧
      ¬ (endState (runAll (enable33 ++ forward33) ready)).AckCoherent := by
  have hfinal : let g := endState (runAll (enable33 ++ forward33) ready)
      g.cpus = [0] ∧ g.isEnabled = true ∧ g.cpuTakesInterrupts 0 = true ∧ g.cpuQueue 0 = [] ∧
        g.readCpu 0xC 0 = 33#32 := by
    decide +kernel
  refine ⟨by decide +kernel, fun hall => ?_⟩
  obtain ⟨hcpus, hen, htakes, hqueue, hread⟩ := hfinal
  have hcoherent := (hall 0 (by rw [hcpus]; exact List.mem_singleton_self 0) hen htakes).1
  rw [hqueue, hread] at hcoherent
  exact absurd hcoherent (by decide)

end Gic

end Vpsim.Peripherals
