import Vpsim.Peripherals.GicServe
import Vpsim.Lib.Keeps

/-!
# Relations kept by the register accesses

Each access is a sequence of elementary changes. A preorder on states is kept by an access when
it is kept by the elementary changes that the access can make; the rules here list them.
-/

namespace Vpsim.Peripherals.Gic

open Vpsim.Lib

variable {g : Gic} {cpu : ℕ}

/-- `setInterruptPending` records its index and sets the bit, or fails when the index is out of range. -/
@[simp] theorem wp_setInterruptPending {interrupt : ℕ} {value : Word} {Q : Unit → Gic → Prop}
    {E : Failure → Gic → Prop} : wp (setInterruptPending cpu interrupt value) Q E g ↔
      if interrupt / 32 < nGicInterrupts / 32 then
        Q () ((g.record (.index cpu (interrupt / 32))).putPending cpu interrupt value)
      else E .indexOutOfRange (g.record (.index cpu (interrupt / 32))) := by
  unfold setInterruptPending
  rw [wp_bind, wp_modify]
  split
  · rw [wp_modify]
  · rw [wp_throw]

variable {R : Gic → Gic → Prop} [IsPreorder Gic R] {offset size id : ℕ} {value : Word}

theorem keeps_setInterruptPending {interrupt : ℕ} (hindex : ∀ g i, R g (g.record (.index cpu i)))
    (hput : ∀ g, R g (g.putPending cpu interrupt value)) :
    Keeps R (setInterruptPending cpu interrupt value) := by
  intro g
  rw [wp_setInterruptPending]
  split
  · exact trans_of R (hindex g _) (hput _)
  · exact hindex g _

/-! ## The CPU interface -/

/-- A completion register takes effect: always the deactivate register, the others in the mode
without it. -/
def Effective (g : Gic) (base offset id : ℕ) : Prop := !g.currMode base id || offset == 0x1000

section Cpu

variable (hindex : ∀ g i, R g (g.record (.index id i))) (hpop : ∀ g, R g (g.popCpu id))
include hindex

include hpop in
theorem keeps_completeInterrupt (hclear : ∀ g, R g (g.putPending id (interruptId value) 0#32))
    (hset : ∀ g n, R g (g.putPending id n 1#32)) (hack : ∀ g v, R g (g.setCurrentInterruptId id v))
    (hround : ∀ g, R g g.nextRound) : Keeps R (completeInterrupt value id) := by
  apply Keeps.getBind
  intro g
  split
  · exact Keeps.throw _
  · apply (keeps_setInterruptPending hindex hclear).bind
    intro _
    split
    · apply (Keeps.modify hpop).bind
      intro _
      unfold showNext
      split
      · apply (keeps_setInterruptPending hindex fun g => hset g _).bind
        intro _
        exact Keeps.modify fun g => hack g _
      · exact Keeps.modify fun g => trans_of R (hack g _) (hround _)
    · exact Keeps.throw _

omit hindex in
/-- A write to the CPU interface keeps a relation from a state that completing or copying keeps. -/
theorem wp_writeCpu
    (hcomplete : isCompletion offset → g.Effective g.config.cpuBase offset id → Keeps R (completeInterrupt value id))
    (hcopy : ¬ isCompletion offset → R g (g.memcpy (g.config.cpuBase + offset + id * 0x100) value size)) :
    wp (writeCpu offset value size id) (fun _ => R g) (fun _ => R g) g := by
  apply wp.step
  rw [wp_get]
  split
  · rename_i hoff
    split
    · rename_i heff
      exact hcomplete hoff heff g
    · exact refl_of R g
  · rename_i hoff
    exact hcopy hoff

/-! ## The virtual CPU interface -/

theorem keeps_endEntry {interrupt : ℕ} {k : Fin 64} {vint : Word} (hpop : entryHw vint → ∀ g, R g (g.popCpu id))
    (hclear : entryHw vint → ∀ g, R g (g.putPending id interrupt 0#32)) (hend : ∀ g, R g (g.notifyEnd id k)) :
    Keeps R (endEntry interrupt vint k id) := by
  unfold endEntry
  split
  · rename_i hhw
    apply (keeps_setInterruptPending hindex (hclear hhw)).bind
    intro _
    apply Keeps.getBind
    intro g
    split
    · exact Keeps.throw _
    · split
      · exact Keeps.modify (hpop hhw)
      · exact Keeps.throw _
  · split
    · exact Keeps.modify hend
    · exact Keeps.pure _

omit hindex in
/-- The completion of a virtual interrupt keeps a relation from a state that its parts keep. -/
theorem wp_completeVirtual
    (hlookup : ∀ k rest, g.vCpuQueue id = k :: rest → R g (g.record (.lookup id k (g.getVIntEntry k))))
    (hretire : ∀ k rest, g.vCpuQueue id = k :: rest → ∀ g', R g' (g'.retireEntry id k))
    (hend : ∀ k rest, g.vCpuQueue id = k :: rest → interruptId value = virtualId (g.getVIntEntry k) →
      Keeps R (endEntry (interruptId value) (g.getVIntEntry k) k id))
    (hnext : ∀ g, R g ((g.popVCpu id).nextVirtual id)) :
    wp (completeVirtual value id) (fun _ => R g) (fun _ => R g) g := by
  apply wp.step
  rw [wp_get]
  split
  · exact refl_of R g
  · rename_i k rest hqueue
    dsimp only
    apply wp.step
    rw [wp_modify]
    have hfound := hlookup k rest hqueue
    split
    · rename_i hid
      apply wp.step
      rw [wp_modify]
      apply ((hend k rest hqueue hid).wp_of_rel (trans_of R hfound (hretire k rest hqueue _))).bind
      intro _ g' h'
      exact trans_of R h' (hnext g')
    · exact hfound

omit hindex in
/-- A write to the virtual CPU interface keeps a relation from a state that completing or copying keeps.
-/
theorem wp_writeVCpu
    (hcomplete : isCompletion offset → g.Effective g.config.vCpuBase offset id →
      wp (completeVirtual value id) (fun _ => R g) (fun _ => R g) g)
    (hcopy : ¬ isCompletion offset → R g (g.memcpy (g.config.vCpuBase + offset + id * 0x100) value size)) :
    wp (writeVCpu offset value size id) (fun _ => R g) (fun _ => R g) g := by
  apply wp.step
  rw [wp_get]
  split
  · rename_i hoff
    split
    · rename_i heff
      exact hcomplete hoff heff
    · exact refl_of R g
  · rename_i hoff
    exact hcopy hoff

end Cpu

/-! ## The list registers -/

/-- A write to the list registers from a state. -/
theorem wp_writeVDist
    (hlist : ∀ h : 0x100 ≤ offset ∧ offset < 0x200, R g (g.listEntry ⟨(offset - 0x100) / 4, listIndex_lt h⟩ value id))
    (hempty : 0x100 ≤ offset ∧ offset < 0x200 → ∀ g, R g (g.notifyEmpty id))
    (hword : ∀ g, R g ((g.putWord (g.vDistBank id + offset) value).record (.bankWrite id offset value)))
    (hcopy : offset = 8 → ∀ g off v, off = 0 ∨ off = 4 →
      R g (g.memcpy (g.config.vCpuBase + off + id * 0x100) v 4)) :
    wp (writeVDist offset value id) (fun _ => R g) (fun _ => R g) g := by
  have hpre : wp (writeList offset value id) (fun _ => R g) (fun _ => R g) g := by
    unfold writeList
    split
    · rename_i hoff
      apply wp.step
      rw [wp_modify]
      split
      · exact hlist hoff
      · exact trans_of R (hlist hoff) (hempty hoff _)
    · exact refl_of R g
  have hforward : Keeps R (forwardControl offset value id) := by
    unfold forwardControl
    split
    · rename_i hoff
      apply Keeps.getBind
      intro g
      apply (Keeps.getBind fun g => Keeps.modify fun g => hcopy hoff g 0 _ (Or.inl rfl)).bind
      intro _
      apply Keeps.getBind
      intro g
      exact Keeps.getBind fun g => Keeps.modify fun g => hcopy hoff g 4 _ (Or.inr rfl)
    · exact Keeps.pure _
  apply hpre.bind
  intro _ g' h'
  refine Keeps.wp_of_rel ((Keeps.modify hword).bind fun _ => hforward.bind fun _ => ?_) h'
  split
  · exact Keeps.throw _
  · exact Keeps.pure _

/-! ## The distributor and the input lines -/

/-- A software interrupt is one of the first sixteen. -/
theorem sgiNumber_lt (value : Word) : sgiNumber value < 16 := by
  unfold sgiNumber
  rw [BitVec.toNat_and]
  exact Nat.lt_of_le_of_lt Nat.and_le_right (by decide)

theorem keeps_generateSgi {cpuId : ℕ}
    (htarget : ∀ g, R g (g.setInterruptTarget (sgiNumber value) (sgiTargets value cpuId)))
    (hsend : ∀ g cpuT, (sgiTargets value cpuId).getLsbD cpuT →
      R g (((g.putOrigin cpuT (sgiNumber value) cpuId).record
        (.index cpuT (sgiNumber value / 32))).putPending cpuT (sgiNumber value) 1#32)) :
    Keeps R (generateSgi value cpuId) := by
  have hlt := sgiNumber_lt value
  have hnumber : sgiNumber value / 32 < nGicInterrupts / 32 := by
    unfold nGicInterrupts
    omega
  apply (Keeps.modify htarget).bind
  intro _
  apply Keeps.getBind
  intro g
  apply Keeps.forM
  intro cpuT _
  split
  · rename_i hbit
    intro g
    apply wp.step
    rw [wp_modify, wp_setInterruptPending, if_pos hnumber]
    exact hsend g cpuT hbit
  · exact Keeps.pure _

omit [IsPreorder Gic R] in
theorem keeps_writeDist {cpuId : ℕ}
    (henable : 0x100 ≤ offset → offset ≤ 0x17C → ∀ g, R g (g.enableBits offset value cpuId))
    (hdisable : 0x180 ≤ offset → offset ≤ 0x1FC → ∀ g, R g (g.disableBits offset value cpuId))
    (hsgi : offset = 0xF00 → Keeps R (generateSgi value cpuId))
    (hcopy : ¬ (0x100 ≤ offset ∧ offset ≤ 0x17C) → ¬ (0x180 ≤ offset ∧ offset ≤ 0x1FC) → offset ≠ 0xF00 →
      ∀ g, R g (g.memcpy (g.config.distBase + offset) value size)) :
    Keeps R (writeDist offset value size cpuId) := by
  unfold writeDist
  split
  · rename_i hoff
    exact Keeps.modify (henable hoff.1 hoff.2)
  · rename_i hen
    split
    · rename_i hoff
      exact Keeps.modify (hdisable hoff.1 hoff.2)
    · rename_i hdis
      split
      · rename_i hoff
        exact hsgi hoff
      · rename_i hoff
        exact Keeps.modify (hcopy hen hdis hoff)

/-- A change of an input line from a state. -/
theorem wp_raiseLine {val : BitVec 64} {irqIdx : Word}
    (hindex : ∀ g cpu i, R g (g.record (.index cpu i)))
    (hput : ∀ g' cpu, 32 ≤ actualIrq irqIdx ∨ (irqIdx >>> 16).getLsbD cpu →
      R g' (g'.putPending cpu (actualIrq irqIdx) (val.setWidth 32)))
    (htarget : actualIrq irqIdx < 32 → ∀ cpu ∈ g.cpus, (irqIdx >>> 16).getLsbD cpu → ∀ g',
      R g' (g'.setInterruptTarget (actualIrq irqIdx) ((irqIdx >>> 16).setWidth 8))) :
    wp (raiseLine val irqIdx) (fun _ => R g) (fun _ => R g) g := by
  apply wp.step
  rw [wp_get]
  split
  · rename_i hspi
    refine Keeps.forM (fun i _ => ?_) g
    exact keeps_setInterruptPending (fun g => hindex g i) fun g => hput g i (Or.inl hspi)
  · rename_i hlow
    split
    · refine Keeps.forM (fun cpu hcpu => ?_) g
      split
      · rename_i hbit
        apply (Keeps.modify (htarget (Nat.lt_of_not_le hlow) cpu hcpu hbit)).bind
        intro _
        exact keeps_setInterruptPending (fun g => hindex g cpu) fun g => hput g cpu (Or.inr hbit)
      · exact Keeps.pure _
    · exact refl_of R g

end Vpsim.Peripherals.Gic
