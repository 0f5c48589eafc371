import Vpsim.Peripherals.GicEnable

/-!
# Indices into the words of pending interrupts

Each CPU has a word for every 32 of the `nGicInterrupts` interrupts. The numbers that index it
come from enable and disable writes, which the maps keep for every later scan, from completion
values and from the input lines. Disable writes name numbers from 1024 on, enable writes beyond
offset 0x140 numbers from 512 on, and completion values have ten bits, so all of these can leave
the vector.
-/

namespace Vpsim.Peripherals

open Vpsim.Lib

namespace Gic

variable {g g' : Gic}

/-- Every index used so far lies in the vector. -/
def IndicesInRange (g : Gic) : Prop := ∀ c i, Event.index c i ∈ g.log → i < nGicInterrupts / 32

/-- No number from `nGicInterrupts` on is in the maps or the queues, nor was one used. -/
structure Bounded (config : GicConfig) (g : Gic) : Prop where
  config : g.config = config
  keys : ∀ c n, findEntry n (g.enableStatus c) ≠ none → n < nGicInterrupts
  queue : ∀ c, ∀ v ∈ g.cpuQueue c, interruptId v < nGicInterrupts
  indices : g.IndicesInRange

theorem Bounded.serves {config : GicConfig} (h : Bounded config g) (hs : Serves g g') : Bounded config g' where
  config := hs.config.trans h.config
  keys := by
    rw [hs.enableStatus]
    exact h.keys
  queue c v hv := by
    obtain ⟨new, hq, hnew⟩ := hs.cpuQueue c
    rw [hq] at hv
    rcases List.mem_append.mp hv with hv | hv
    · exact h.queue c v hv
    · obtain ⟨n, hn, rfl⟩ := hnew v hv
      have hlt := h.keys c n (by rw [hn]; exact Option.some_ne_none _)
      rw [interruptId_ackValue (by unfold nGicInterrupts at hlt; omega)]
      exact hlt
  indices c i hi := by
    obtain ⟨new, hlog, hnew⟩ := hs.log
    rw [hlog] at hi
    rcases List.mem_append.mp hi with hi | hi
    · obtain ⟨entry, hentry, rfl⟩ := hnew _ hi
      have hlt := h.keys c entry.1 (findEntry_ne_none hentry)
      unfold nGicInterrupts at hlt ⊢
      omega
    · exact h.indices c i hi

/-- A change outside the maps, the queues and the log. -/
theorem Bounded.of_eq {config : GicConfig} (h : Bounded config g) (hc : g'.config = g.config)
    (he : g'.enableStatus = g.enableStatus) (hq : g'.cpuQueue = g.cpuQueue) (hl : g'.log = g.log) :
    Bounded config g' := by
  obtain ⟨hconfig, hkeys, hqueue, hindices⟩ := h
  refine ⟨hc.trans hconfig, by rwa [he], by rwa [hq], ?_⟩
  unfold IndicesInRange
  rwa [hl]

/-- An interrupt in range is made pending. -/
theorem Bounded.setInterruptPending {config : GicConfig} (h : Bounded config g) (cpu : ℕ) {n : ℕ}
    (hn : n < nGicInterrupts) (value : Word) {E : Failure → Gic → Prop} :
    wp (Gic.setInterruptPending cpu n value) (fun _ => Bounded config) E g := by
  have hindex : n / 32 < nGicInterrupts / 32 := by
    unfold nGicInterrupts at hn ⊢
    omega
  rw [wp_setInterruptPending, if_pos hindex]
  refine ⟨h.config, h.keys, h.queue, fun c i hi => ?_⟩
  rcases List.mem_cons.mp hi with hi | hi
  · cases hi
    exact hindex
  · exact h.indices c i hi

theorem Bounded.popCpu {config : GicConfig} (h : Bounded config g) (cpu : ℕ) : Bounded config (g.popCpu cpu) := by
  refine ⟨h.config, h.keys, fun c v hv => ?_, h.indices⟩
  rw [popCpu_cpuQueue] at hv
  split at hv
  · exact h.queue cpu v (List.mem_of_mem_tail hv)
  · exact h.queue c v hv

theorem Bounded.completeInterrupt {config : GicConfig} (h : Bounded config g) {value : Word} {id : ℕ}
    (hvalue : g.cpuQueue id ≠ [] → interruptId value < nGicInterrupts) :
    wp (Gic.completeInterrupt value id) (fun _ => Bounded config) (fun _ => IndicesInRange) g := by
  apply wp.step
  rw [wp_get]
  split
  · exact h.indices
  · rename_i front rest hqueue
    apply (h.setInterruptPending id (hvalue (by simp [hqueue])) 0#32).bind
    intro _ g₁ h₁
    split
    · apply wp.step
      rw [wp_modify]
      have h₂ := h₁.popCpu id
      unfold showNext
      split
      · rename_i next tail
        have hnext := h.queue id next (by simp [hqueue])
        apply (h₂.setInterruptPending id hnext 1#32).bind
        intro _ g₃ h₃
        exact h₃.of_eq rfl rfl rfl rfl
      · exact h₂.of_eq rfl rfl rfl rfl
    · exact h₁.indices

theorem Bounded.generateSgi {config : GicConfig} (h : Bounded config g) (value : Word) (cpuId : ℕ) :
    wp (Gic.generateSgi value cpuId) (fun _ => Bounded config) (fun _ => IndicesInRange) g := by
  apply wp.step
  rw [wp_modify]
  apply wp.step
  rw [wp_get]
  have h₀ : Bounded config (g.setInterruptTarget (sgiNumber value) (sgiTargets value cpuId)) :=
    h.of_eq rfl rfl rfl rfl
  apply wp_forM_mem _ h₀
  intro g₁ cpuT _ h₁
  split
  · apply wp.step
    rw [wp_modify]
    have h₂ : Bounded config (g₁.putOrigin cpuT (sgiNumber value) cpuId) := h₁.of_eq rfl rfl rfl rfl
    exact h₂.setInterruptPending cpuT (Nat.lt_trans (sgiNumber_lt value) (by decide)) 1#32
  · exact h₁

theorem Bounded.raiseLine {config : GicConfig} (h : Bounded config g) (val : BitVec 64) {irqIdx : Word}
    (hirq : actualIrq irqIdx < nGicInterrupts) :
    wp (Gic.raiseLine val irqIdx) (fun _ => Bounded config) (fun _ => IndicesInRange) g := by
  apply wp.step
  rw [wp_get]
  split
  · apply wp_forM_mem _ h
    intro g₁ i _ h₁
    exact h₁.setInterruptPending i hirq _
  · split
    · apply wp_forM_mem _ h
      intro g₁ cpu _ h₁
      split
      · apply wp.step
        rw [wp_modify]
        have h₂ : Bounded config (g₁.setInterruptTarget (actualIrq irqIdx) ((irqIdx >>> 16).setWidth 8)) :=
          h₁.of_eq rfl rfl rfl rfl
        exact h₂.setInterruptPending cpu hirq _
      · exact h₁
    · exact h.indices

/-- A write whose enable, disable and completion values name interrupts in range: a disable write
names none at all. -/
def IndexSafe (g : Gic) (op : GicOp) : Prop :=
  ∀ w, g.config.guestWrite op = some w →
    (w.region = .dist → 0x100 ≤ w.offset → w.offset ≤ 0x17C →
      ∀ i < 32, w.value.getLsbD i → namedInterrupt w.offset i < nGicInterrupts) ∧
    (w.region = .dist → 0x180 ≤ w.offset → w.offset ≤ 0x1FC → w.value = 0#32) ∧
    (w.region = .cpu → isCompletion w.offset → (!g.currMode g.config.cpuBase w.id || w.offset == 0x1000) →
      g.cpuQueue w.id ≠ [] → interruptId w.value < nGicInterrupts)

/-- An operation of the distributor, of the CPU interface, or of an input line with a number
that has a pending bit. -/
def Physical (config : GicConfig) : GicOp → Prop
  | .updateIrq _ irqIdx => actualIrq irqIdx < nGicInterrupts
  | op => ∀ w, config.guestWrite op = some w → w.region = .dist ∨ w.region = .cpu

theorem Bounded.writeDist {config : GicConfig} (h : Bounded config g) {op : GicOp} (hsafe : g.IndexSafe op)
    {w : GuestWrite} (hw : g.config.guestWrite op = some w) (hregion : w.region = .dist) :
    wp (Gic.writeDist w.offset w.value w.len w.id) (fun _ => Bounded config) (fun _ => IndicesInRange) g := by
  obtain ⟨henable, hdisable, -⟩ := hsafe w hw
  unfold Gic.writeDist
  split
  · rename_i hoff
    obtain ⟨mem, map, heq, -, hmap⟩ := enableBits_spec g hoff.1 hoff.2 w.value w.id
    rw [wp_modify, heq]
    refine ⟨h.config, fun c n hn => ?_, h.queue, h.indices⟩
    rcases hmap c n with ⟨⟨i, hi, hbit, rfl, -⟩, -⟩ | ⟨-, hfind⟩
    · exact henable hregion hoff.1 hoff.2 i hi hbit
    · exact h.keys c n (hfind ▸ hn)
  · split
    · rename_i hoff
      obtain ⟨mem, map, heq, -, hmap⟩ := disableBits_spec g hoff.1 hoff.2 w.value w.id
      rw [wp_modify, heq]
      refine ⟨h.config, fun c n hn => ?_, h.queue, h.indices⟩
      rcases hmap c n with ⟨⟨i, hi, hbit, -, -⟩, -⟩ | ⟨-, hfind⟩
      · rw [hdisable hregion hoff.1 hoff.2] at hbit
        simp at hbit
      · exact h.keys c n (hfind ▸ hn)
    · split
      · exact h.generateSgi w.value w.id
      · exact h.of_eq rfl rfl rfl rfl

theorem Bounded.writeCpu {config : GicConfig} (h : Bounded config g) {offset len id : ℕ} {value : Word}
    (hvalue : isCompletion offset → (!g.currMode g.config.cpuBase id || offset == 0x1000) → g.cpuQueue id ≠ [] →
      interruptId value < nGicInterrupts) :
    wp (Gic.writeCpu offset value len id) (fun _ => Bounded config) (fun _ => IndicesInRange) g := by
  apply wp.step
  rw [wp_get]
  split
  · rename_i hcomplete
    split
    · rename_i hmode
      exact h.completeInterrupt (hvalue hcomplete hmode)
    · exact h
  · exact h.of_eq rfl rfl rfl rfl

theorem Bounded.step {config : GicConfig} (h : Bounded config g) {op : GicOp} (hphys : Physical config op)
    (hsafe : g.IndexSafe op) :
    wp (Gic.step op) (fun _ => Bounded config) (fun _ => IndicesInRange) g := by
  apply wp_step op (fun _ => h.indices) fun _ _ => h
  · intro w hw
    have hregion : w.region = .dist ∨ w.region = .cpu := by
      rw [h.config] at hw
      cases op with
      | updateIrq val irqIdx => cases hw
      | read cpu addr len => cases hw
      | write cpu addr value len => exact hphys w hw
    have hwrite : wp (writeRegion w.region w.offset w.value w.len w.id) (fun _ => Bounded config)
        (fun _ => IndicesInRange) g := by
      rcases hregion with hregion | hregion
      · rw [hregion]
        exact h.writeDist hsafe hw hregion
      · rw [hregion]
        exact h.writeCpu fun hcomplete hmode hqueue => (hsafe w hw).2.2 hregion hcomplete hmode hqueue
    exact hwrite.mono fun _ g' h' => h'.serves (serves_combLogic g')
  · intro val irqIdx hop
    subst hop
    exact (h.raiseLine val hphys).mono fun _ g' h' => h'.serves (serves_combLogic g')

/-- In every run of distributor and CPU interface accesses and input lines whose writes are
`IndexSafe`, every index lies in the vector, also when an access fails. -/
theorem indicesInRange_of_indexSafe (config : GicConfig) (mem : ByteMemory) (behind : ℕ → ℕ → Word)
    (stack : ℕ → BitVec 8) (ids : List ℕ) (ops : List GicOp) (hphys : ∀ op ∈ ops, Physical config op)
    (hsafe : Along step IndexSafe (start config mem behind stack ids) ops) :
    (endState (runAll ops (start config mem behind stack ids))).IndicesInRange := by
  obtain ⟨hconfig, -, hlog, hstatus, hqueue, -⟩ := start_spec config mem behind stack ids
  have hstart : Bounded config (start config mem behind stack ids) := by
    refine ⟨hconfig, fun c n hn => ?_, fun c v hv => ?_, fun c i hi => ?_⟩
    · rw [hstatus] at hn
      exact absurd rfl hn
    · rw [hqueue] at hv
      cases hv
    · rw [hlog] at hi
      cases hi
  have hrun : wp (runAll ops) (fun _ => Bounded config) (fun _ => IndicesInRange) _ :=
    hsafe.wp_forM (fun _ op hop h hcond => h.step (hphys op hop) hcond) hstart
  exact (hrun.mono fun _ _ h => h.indices).endState

/-- The distributor and the interface of CPU 0 are switched on, interrupts 64 to 95 are enabled, and the line of
interrupt 70 is raised. -/
def enable64 : List GicOp :=
  [.write (some 0) 0#64 1#32 4, .write (some 0) 0x1000#64 1#32 4, .write (some 0) 0x108#64 0xffffffff#32 4,
    .updateIrq 1#64 70#32]

/-- The scan uses index 2 for these interrupts. -/
theorem indicesInRange_enable_line : (endState (runAll enable64 (small [0]))).IndicesInRange ∧
    .index 0 2 ∈ (endState (runAll enable64 (small [0]))).log := by
  refine ⟨indicesInRange_of_indexSafe _ _ _ _ _ _ ?_ ?_, by decide +kernel⟩
  · intro op hop
    have hphysical : ∀ w ∈ enable64.filterMap (small [0]).config.guestWrite, w.region = .dist ∨ w.region = .cpu := by
      decide +kernel
    cases op with
    | read cpu addr len => exact nofun
    | write cpu addr value len => exact fun w hw => hphysical w (List.mem_filterMap.mpr ⟨_, hop, hw⟩)
    | updateIrq val irqIdx =>
      obtain ⟨-, rfl⟩ : val = 1#64 ∧ irqIdx = 70#32 := by simpa [enable64] using hop
      exact (by decide : actualIrq 70#32 < nGicInterrupts)
  · have hnamed : ∀ w ∈ enable64.filterMap (small [0]).config.guestWrite, w.region = .dist → 0x100 ≤ w.offset →
        ∀ i < 32, namedInterrupt w.offset i < nGicInterrupts ∧ w.offset < 0x180 := by
      decide +kernel
    have hother : ∀ w ∈ enable64.filterMap (small [0]).config.guestWrite, w.region = .cpu → isCompletion w.offset = false := by
      decide +kernel
    apply along_of_enabledBelow _ (enabledBelow_start _ _ _ _ _)
    intro g hg op hop w hw
    rw [hg.config] at hw
    have hmem := List.mem_filterMap.mpr ⟨op, hop, hw⟩
    refine ⟨fun hregion hlow _ i hi _ => (hnamed w hmem hregion hlow i hi).1, fun hregion hlow _ => ?_,
      fun hregion hcompletion => ?_⟩
    · exact absurd (hnamed w hmem hregion (by omega) 0 (by decide)).2 (Nat.not_lt_of_le hlow)
    · rw [hother w hmem hregion] at hcompletion
      cases hcompletion

/-- With the distributor and CPU 0 switched on, one disable write makes the scan use index 32. -/
theorem disable_leaves_vector :
    ¬ (endState (runAll [.write (some 0) 0#64 1#32 4, .write (some 0) 0x1000#64 1#32 4,
      .write (some 0) 0x180#64 1#32 4] (small [0]))).IndicesInRange := by
  intro hrange
  have hlog : Event.index 0 32 ∈ (endState (runAll [.write (some 0) 0#64 1#32 4,
      .write (some 0) 0x1000#64 1#32 4, .write (some 0) 0x180#64 1#32 4] (small [0]))).log := by
    decide +kernel
  exact absurd (hrange 0 32 hlog) (by decide)

end Gic

end Vpsim.Peripherals
