import Vpsim.Peripherals.GicAccess

/-!
# The control register of the virtual machine

`GICH_VMCR` shows fields of four registers of the virtual interface. A read packs them. A write
stores the word in the bank of list registers and passes on the control bits and the priority mask;
the two binary points stay as they are in the virtual interface.
-/

namespace Vpsim.Peripherals

open Vpsim.Lib

/-- The fields of the control register of the virtual machine. -/
@[ext]
structure VmcrFields where
  control : BitVec 9
  abp : BitVec 3
  bp : BitVec 3
  priorityMask : BitVec 5
  deriving DecidableEq

/-- The fields of a word. -/
def vmcrFields (w : Word) : VmcrFields :=
  ⟨w.extractLsb' 0 9, w.extractLsb' 18 3, w.extractLsb' 21 3, w.extractLsb' 27 5⟩

/-- The registers of the virtual interface that have a field. -/
inductive GicvRegister where
  | control
  | priorityMask
  | bp
  | abp
  deriving DecidableEq

/-- The offset of a register. -/
def GicvRegister.offset : GicvRegister → ℕ
  | .control => 0
  | .priorityMask => 4
  | .bp => 8
  | .abp => 0x1c

/-- The fields after a write to one of the registers. -/
def GicvRegister.put (register : GicvRegister) (value : Word) (fields : VmcrFields) : VmcrFields :=
  match register with
  | .control => { fields with control := value.extractLsb' 0 9 }
  | .priorityMask => { fields with priorityMask := value.extractLsb' 3 5 }
  | .bp => { fields with bp := value.extractLsb' 0 3 }
  | .abp => { fields with abp := value.extractLsb' 0 3 }

/-- A write to the control register of the virtual machine or to one of the registers it shows. -/
inductive AliasWrite where
  | vmcr (value : Word)
  | gicv (register : GicvRegister) (value : Word)

/-- The fields after a write. -/
def AliasWrite.fields : AliasWrite → VmcrFields → VmcrFields
  | .vmcr value, _ => vmcrFields value
  | .gicv register value, fields => register.put value fields

namespace Gic

/-- The fields as the registers of the virtual interface have them. -/
def gicvFields (g : Gic) (id : ℕ) : VmcrFields :=
  ⟨(g.readVCpu 0 id).extractLsb' 0 9, (g.readVCpu 0x1c id).extractLsb' 0 3,
    (g.readVCpu 8 id).extractLsb' 0 3, (g.readVCpu 4 id).extractLsb' 3 5⟩

/-- A write of a CPU. -/
def aliasWrite (id : ℕ) : AliasWrite → GicM Unit
  | .vmcr value => writeVDist 8 value id
  | .gicv register value => writeVCpu register.offset value 4 id

/-- The state after a write to the control register of the virtual machine, before the alias is
passed on. -/
def storeVmcr (g : Gic) (value : Word) (id : ℕ) : Gic :=
  (g.putWord (g.vDistBank id + 8) value).record (.bankWrite id 8 value)

/-- The write is read back from both register frames. -/
def Reflects (g : Gic) (op : ℕ × AliasWrite) : Prop :=
  ∃ g', aliasWrite op.1 op.2 g = .ok () g' ∧
    vmcrFields (g'.readVDist 8 op.1) = op.2.fields (g.gicvFields op.1) ∧
    g'.gicvFields op.1 = op.2.fields (g.gicvFields op.1)

/-- A write to the control register of the virtual machine has the binary points that are there. -/
def KeepsPoints (g : Gic) : ℕ × AliasWrite → Prop
  | (id, .vmcr value) =>
    (vmcrFields value).abp = ((g.storeVmcr value id).gicvFields id).abp ∧
      (vmcrFields value).bp = ((g.storeVmcr value id).gicvFields id).bp
  | (_, .gicv _ _) => True

section Alias

variable (g : Gic) (id : ℕ)

/-- Packing the fields and taking them apart gives the fields, cut to their widths. -/
theorem vmcrFields_pack (control abp bp priorityMask : Word) :
    vmcrFields ((control &&& 0x1ff#32) ||| (bp &&& 7#32) <<< 21 ||| (abp &&& 7#32) <<< 18 |||
      (priorityMask >>> 3) <<< 27) =
    ⟨control.extractLsb' 0 9, abp.extractLsb' 0 3, bp.extractLsb' 0 3, priorityMask.extractLsb' 3 5⟩ := by
  unfold vmcrFields
  congr 1
  · apply BitVec.eq_of_getLsbD_eq
    intro i hi
    interval_cases i <;> simp
  · apply BitVec.eq_of_getLsbD_eq
    intro i hi
    interval_cases i <;> simp
  · apply BitVec.eq_of_getLsbD_eq
    intro i hi
    interval_cases i <;> simp
  · apply BitVec.eq_of_getLsbD_eq
    intro i hi
    interval_cases i <;> simp

/-- The control register of the virtual machine shows the registers of the virtual interface. -/
theorem vmcrFields_readVDist : vmcrFields (g.readVDist 8 id) = g.gicvFields id :=
  vmcrFields_pack _ _ _ _

/-- Copying a word stores it. -/
theorem memcpy_word (addr : ℕ) (value : Word) : g.memcpy addr value 4 = g.putWord addr value := by
  unfold memcpy putWord storeWord store
  congr 1
  funext a
  by_cases hin : addr ≤ a ∧ a < addr + 4
  · rw [if_pos hin, if_pos hin]
    exact if_pos (by omega)
  · rw [if_neg hin, if_neg hin]

/-- A register that is written reads back. -/
theorem readVCpu_putWord (off : ℕ) (value : Word) :
    (g.putWord (g.config.vCpuBase + off + id * 0x100) value).readVCpu off id = value := by
  unfold readVCpu
  rw [Nat.add_right_comm]
  exact loadWord_storeWord value

/-- Writing a register leaves the others. -/
theorem readVCpu_putWord_of_apart (off other : ℕ) (h : off + 4 ≤ other ∨ other + 4 ≤ off) (value : Word) :
    (g.putWord (g.config.vCpuBase + off + id * 0x100) value).readVCpu other id = g.readVCpu other id := by
  apply loadWord_store_frame
  change g.config.vCpuBase + id * 0x100 + other + 4 ≤ _ ∨ _ ≤ g.config.vCpuBase + id * 0x100 + other
  omega

/-- A write to a register of the virtual interface changes its field. -/
theorem gicvFields_putWord (register : GicvRegister) (value : Word) :
    (g.putWord (g.config.vCpuBase + register.offset + id * 0x100) value).gicvFields id =
      register.put value (g.gicvFields id) := by
  have hself := readVCpu_putWord g id register.offset value
  have hframe := fun other h => readVCpu_putWord_of_apart g id register.offset other h value
  -- only what the registers read counts from here on
  generalize g.putWord (g.config.vCpuBase + register.offset + id * 0x100) value = g' at hself hframe ⊢
  unfold gicvFields
  cases register with
  | control =>
    have hcontrol : g'.readVCpu 0 id = value := hself
    rw [hcontrol, hframe 0x1c (.inl (by decide)), hframe 8 (.inl (by decide)), hframe 4 (.inl (by decide))]
    rfl
  | priorityMask =>
    have hmask : g'.readVCpu 4 id = value := hself
    rw [hmask, hframe 0 (.inr (by decide)), hframe 0x1c (.inl (by decide)), hframe 8 (.inl (by decide))]
    rfl
  | bp =>
    have hbp : g'.readVCpu 8 id = value := hself
    rw [hbp, hframe 0 (.inr (by decide)), hframe 0x1c (.inl (by decide)), hframe 4 (.inr (by decide))]
    rfl
  | abp =>
    have habp : g'.readVCpu 0x1c id = value := hself
    rw [habp, hframe 0 (.inr (by decide)), hframe 8 (.inr (by decide)), hframe 4 (.inr (by decide))]
    rfl

/-- A write to a register of the virtual interface stores it at its offset in the interface of the CPU.
-/
theorem aliasWrite_gicv (register : GicvRegister) (value : Word) : aliasWrite id (.gicv register value) g =
    .ok () (g.putWord (g.config.vCpuBase + register.offset + id * 0x100) value) := by
  rw [← memcpy_word]
  cases register with
  | control => rfl
  | priorityMask => rfl
  | bp => rfl
  | abp => rfl

/-- A field of the control register of the virtual machine is merged into a register. -/
theorem extractLsb'_merge (old value : Word) :
    ((old &&& ~~~0x1ff#32) ||| (value &&& 0x1ff#32)).extractLsb' 0 9 = value.extractLsb' 0 9 ∧
      ((value >>> 27) <<< 3 ||| (old &&& ~~~(0x1f#32 <<< 3))).extractLsb' 3 5 = value.extractLsb' 27 5 := by
  constructor
  · apply BitVec.eq_of_getLsbD_eq
    intro i hi
    interval_cases i <;> simp
  · apply BitVec.eq_of_getLsbD_eq
    intro i hi
    interval_cases i <;> simp

/-- A write to the control register of the virtual machine passes on two of its fields. -/
theorem aliasWrite_vmcr (value : Word) :
    ∃ g', aliasWrite id (.vmcr value) g = .ok () g' ∧
      g'.gicvFields id =
        { (g.storeVmcr value id).gicvFields id with
          control := (vmcrFields value).control
          priorityMask := (vmcrFields value).priorityMask } := by
  -- the control bits are merged first, then the priority mask
  let control := ((g.storeVmcr value id).readVCpu 0 id &&& ~~~0x1ff#32) ||| (value &&& 0x1ff#32)
  have hcontrol := aliasWrite_gicv (g.storeVmcr value id) id .control control
  have hfields := gicvFields_putWord (g.storeVmcr value id) id .control control
  generalize (g.storeVmcr value id).putWord _ _ = g₁ at hcontrol hfields
  let priorityMask := (value >>> 27) <<< 3 ||| (g₁.readVCpu 4 id &&& ~~~(0x1f#32 <<< 3))
  have hrun := calc aliasWrite id (.vmcr value) g
    _ = (aliasWrite id (.gicv .control control) >>= fun _ => do
          let g ← get
          writeVCpu 4 ((value >>> 27) <<< 3 ||| (g.readVCpu 4 id &&& ~~~(0x1f#32 <<< 3))) 4 id)
        (g.storeVmcr value id) := rfl
    _ = aliasWrite id (.gicv .priorityMask priorityMask) g₁ := bind_of_ok hcontrol
    _ = .ok () _ := aliasWrite_gicv g₁ id .priorityMask priorityMask
  refine ⟨_, hrun, ?_⟩
  rw [gicvFields_putWord g₁ id .priorityMask, hfields]
  exact congrArg₂ (fun control priorityMask => VmcrFields.mk control _ _ priorityMask)
    (extractLsb'_merge _ value).1 (extractLsb'_merge _ value).2

/-- A write is read back from both register frames exactly when it has the binary points that are there. -/
theorem reflects_iff (op : ℕ × AliasWrite) : g.Reflects op ↔ g.KeepsPoints op := by
  obtain ⟨id, write⟩ := op
  cases write with
  | gicv register value =>
    apply iff_of_true _ trivial
    have hfields := gicvFields_putWord g id register value
    refine ⟨_, aliasWrite_gicv g id register value, ?_, hfields⟩
    rw [vmcrFields_readVDist]
    exact hfields
  | vmcr value =>
    obtain ⟨g', hrun, hfields⟩ := aliasWrite_vmcr g id value
    have hpoints : g'.gicvFields id = vmcrFields value ↔ g.KeepsPoints (id, .vmcr value) := by
      rw [hfields, VmcrFields.ext_iff]
      constructor
      · intro ⟨_, habp, hbp, _⟩
        exact ⟨habp.symm, hbp.symm⟩
      · intro ⟨habp, hbp⟩
        exact ⟨rfl, habp.symm, hbp.symm, rfl⟩
    rw [← hpoints]
    constructor
    · intro ⟨g'', hrun', _, hgicv⟩
      rw [hrun] at hrun'
      cases hrun'
      exact hgicv
    · intro heq
      exact ⟨g', hrun, (vmcrFields_readVDist g' id).trans heq, heq⟩

end Alias

/-- In a run of writes to the registers of the virtual interface and to the control register of the virtual
machine, by any CPUs, every write is read back from both register frames exactly when each write to the control
register has the binary points that are in the virtual interface. -/
theorem along_reflects_iff (g : Gic) (ops : List (ℕ × AliasWrite)) :
    Along (fun op => aliasWrite op.1 op.2) Reflects g ops ↔ Along (fun op => aliasWrite op.1 op.2) KeepsPoints g ops := by
  have hpoint : (fun g op => Reflects g op) = fun g op => KeepsPoints g op := by
    funext g op
    exact propext (reflects_iff g op)
  exact iff_of_eq (congrArg (fun cond => Along (fun op => aliasWrite op.1 op.2) cond g ops) hpoint)

/-- A binary point of 1 is lost: it reads 0. -/
theorem binary_point_lost :
    ∃ g', writeVDist 8 0x200000#32 0 (small [0]) = .ok () g' ∧
      (vmcrFields 0x200000#32).bp = 1#3 ∧ (vmcrFields (g'.readVDist 8 0)).bp = 0#3 := by
  obtain ⟨g', hrun, hfields⟩ := aliasWrite_vmcr (small [0]) 0 0x200000#32
  have hwrite : aliasWrite 0 (.vmcr 0x200000#32) = writeVDist 8 0x200000#32 0 := rfl
  rw [hwrite] at hrun
  refine ⟨g', hrun, by decide, ?_⟩
  rw [vmcrFields_readVDist, hfields]
  decide +kernel

end Gic

end Vpsim.Peripherals
