import Vpsim.Lib.ByteMemory
import Vpsim.Lib.History
import Vpsim.Lib.Run

/-!
# The interrupt masks of the Cadence UART

What a guest writes to the registers goes into the local memory, which has arbitrary contents at first. The mask
that it reads back is computed from the words in IER and IDR, while the interrupts are driven by flags that a write
to IER sets and a write to IDR clears.
-/

namespace Vpsim.Peripherals

open Vpsim.Lib

/-- An access: its distance from the base address, its length and the bytes behind its pointer. -/
structure UartPayload where
  offs : ℕ
  len : ℕ
  ptr : ℕ → BitVec 8

/-- The UART. `mChannel` has the characters that each poll of the channel is going to find, and `sent` the
characters that were written to it. -/
structure Xuartps where
  mLocalMem : ByteMemory
  mIntEnable : Bool
  mOutIntEnable : Bool
  mInterrupting : Bool
  mOutInt : Bool
  mHasTimeout : Bool
  mTimeoutCounter : ℕ
  mToIntEnable : Bool
  mRxEnable : Bool
  mTxEnable : Bool
  mInFifo : List (BitVec 8)
  mChannel : List (List (BitVec 8))
  sent : List (BitVec 8)
  /-- The level of the interrupt line. -/
  raised : Bool

/-- `FIFO_SIZE`. -/
def uartFifoSize : ℕ := 64

/-- A 64-bit word of the local memory. -/
def loadLong (mem : ByteMemory) (addr : ℕ) : BitVec 64 := loadWord mem (addr + 4) ++ loadWord mem addr

/-- Write a 64-bit word. -/
def storeLong (mem : ByteMemory) (addr : ℕ) (w : BitVec 64) : ByteMemory :=
  store mem addr 8 fun i => w.extractLsb' (8 * i) 8

/-- `GET_BITS`. -/
def getBits (mem : ByteMemory) (reg off len : ℕ) : BitVec 64 := (loadLong mem reg >>> off) &&& ((1#64 <<< len) - 1#64)

/-- `GET_BIT` as a condition. -/
def getBit (mem : ByteMemory) (reg off : ℕ) : Bool := getBits mem reg off 1 != 0#64

/-- `SET_BITS`. -/
def setBits (mem : ByteMemory) (reg off len : ℕ) (v : BitVec 64) : ByteMemory :=
  storeLong mem reg ((loadLong mem reg &&& ~~~(((1#64 <<< len) - 1#64) <<< off)) ||| (v <<< off))

namespace Xuartps

abbrev UartM := EStateM String Xuartps

/-- The UART as constructed, over local memory as it was allocated. -/
def fresh (mem : ByteMemory) (mRxEnable mTxEnable : Bool) (mChannel : List (List (BitVec 8))) : Xuartps where
  mLocalMem := storeWord (storeWord mem 0x18 0x0000028B#32) 0x34 0x0000000F#32
  mIntEnable := false
  mOutIntEnable := false
  mInterrupting := false
  mOutInt := true
  mHasTimeout := false
  mTimeoutCounter := 0
  mToIntEnable := false
  mRxEnable := mRxEnable
  mTxEnable := mTxEnable
  mInFifo := []
  mChannel := mChannel
  sent := []
  raised := false

/-- The body of a register that the access starts in. -/
def reg {α : Type} (reg : ℕ) (p : UartPayload) (skip : α) (body : UartM α) : UartM α :=
  if reg ≤ p.offs ∧ p.offs < reg + 4 then body else return skip

/-- `REG_READ`. -/
def regRead (p : UartPayload) : UartM UartPayload := do
  let s ← get
  return { p with ptr := fun i => if i < p.len then s.mLocalMem (p.offs + i) else p.ptr i }

/-- `REG_WRITE`. -/
def regWrite (p : UartPayload) : UartM PUnit :=
  modify fun s => { s with mLocalMem := store s.mLocalMem p.offs p.len p.ptr }

/-- `SET_BIT`. -/
def setBit (reg off : ℕ) (v : Bool) : UartM PUnit :=
  modify fun s => { s with mLocalMem := setBits s.mLocalMem reg off 1 (if v then 1#64 else 0#64) }

def inputReady : UartM Bool := do
  modify fun s => { s with mInFifo := s.mInFifo ++ s.mChannel.headD [], mChannel := s.mChannel.tail }
  let s ← get
  return !s.mInFifo.isEmpty

def readByte : UartM (BitVec 8) := do
  let _ ← inputReady
  let s ← get
  match s.mInFifo with
  | [] => throw "CDNS: Trying to read empty FIFO !"
  | b :: mInFifo =>
    set { s with mInFifo := mInFifo }
    return b

def isFifoFull : UartM Bool := do
  let ready ← inputReady
  let s ← get
  return ready && decide (uartFifoSize ≤ s.mInFifo.length)

def isFifoEmpty : UartM Bool := do
  let ready ← inputReady
  return !ready

def isFifoOver : UartM Bool := do
  let trigger := (loadWord (← get).mLocalMem 0x20).toNat
  let ready ← inputReady
  let s ← get
  return ready && decide (trigger ≤ s.mInFifo.length)

/-- The mask is computed into the local memory when it is read. -/
def computeImr : UartM PUnit :=
  modify fun s => { s with
    mLocalMem := storeWord s.mLocalMem 0x10 (loadWord s.mLocalMem 0x8 &&& ~~~loadWord s.mLocalMem 0xC) }

/-- The interrupt status. -/
def computeIsr : UartM PUnit := do
  setBit 0x14 3 true
  let full ← isFifoFull
  setBit 0x14 2 full
  let empty ← isFifoEmpty
  setBit 0x14 0 !empty
  let s ← get
  setBit 0x14 8 (s.mHasTimeout && s.mTimeoutCounter == 0)

/-- The channel status. -/
def computeSr : UartM PUnit := do
  setBit 0x2C 3 true
  let full ← isFifoFull
  setBit 0x2C 2 full
  let empty ← isFifoEmpty
  setBit 0x2C 1 empty
  let fifoOver ← isFifoOver
  setBit 0x2C 0 fifoOver

def read (p : UartPayload) : UartM UartPayload := do
  let p ← reg 0x00 p p (do
    setBit 0x00 0 false
    setBit 0x00 1 false
    regRead p)
  let p ← reg 0x04 p p (regRead p)
  let p ← reg 0x10 p p (do
    computeImr
    regRead p)
  let p ← reg 0x14 p p (do
    computeIsr
    let p ← regRead p
    modify fun s => { s with mOutInt := false }
    return p)
  let p ← reg 0x30 p p (do
    let b ← readByte
    return { p with ptr := fun i => if i = 0 then b else p.ptr i })
  let p ← reg 0x2C p p (do
    computeSr
    regRead p)
  let p ← reg 0x18 p p (regRead p)
  reg 0x34 p p (regRead p)

/-- A write to CR. Each flag is set or cleared if its bit is set, and keeps its value otherwise. -/
def writeCr (p : UartPayload) : UartM PUnit := do
  regWrite p
  modify fun s => { s with mTxEnable := s.mTxEnable || getBit s.mLocalMem 0x00 4 }
  modify fun s => { s with mTxEnable := s.mTxEnable && !getBit s.mLocalMem 0x00 5 }
  modify fun s => { s with mRxEnable := s.mRxEnable || getBit s.mLocalMem 0x00 2 }
  modify fun s => { s with mRxEnable := s.mRxEnable && !getBit s.mLocalMem 0x00 3 }

/-- A write to RXTOUT. -/
def writeRxtout (p : UartPayload) : UartM PUnit := do
  regWrite p
  modify fun s => { s with mTimeoutCounter := (p.ptr 0).toNat, mHasTimeout := (p.ptr 0).toNat != 0 }

/-- A write to IER. -/
def writeIer (p : UartPayload) : UartM PUnit := do
  regWrite p
  modify fun s => { s with mOutIntEnable := s.mOutIntEnable || getBit s.mLocalMem 0x08 3 }
  modify fun s => { s with mIntEnable := s.mIntEnable || getBit s.mLocalMem 0x08 0 }
  modify fun s => { s with mIntEnable := s.mIntEnable || getBit s.mLocalMem 0x08 2 }
  modify fun s => { s with
    mToIntEnable := s.mToIntEnable || getBit s.mLocalMem 0x08 8
    mHasTimeout := s.mHasTimeout || getBit s.mLocalMem 0x08 8 }

/-- A write to IDR. The last bit is looked for in IER. -/
def writeIdr (p : UartPayload) : UartM PUnit := do
  regWrite p
  modify fun s => { s with mOutIntEnable := s.mOutIntEnable && !getBit s.mLocalMem 0x0C 3 }
  modify fun s => { s with mIntEnable := s.mIntEnable && !getBit s.mLocalMem 0x0C 0 }
  modify fun s => { s with mIntEnable := s.mIntEnable && !getBit s.mLocalMem 0x0C 2 }
  modify fun s => { s with
    mToIntEnable := s.mToIntEnable && !getBit s.mLocalMem 0x08 8
    mHasTimeout := s.mHasTimeout && !getBit s.mLocalMem 0x08 8 }

/-- A write to FIFO. -/
def writeFifo (p : UartPayload) : UartM PUnit :=
  modify fun s => { s with sent := s.sent ++ [p.ptr 0], mOutInt := true }

def write (p : UartPayload) : UartM PUnit := do
  reg 0x00 p ⟨⟩ (writeCr p)
  reg 0x04 p ⟨⟩ (regWrite p)
  reg 0x20 p ⟨⟩ (writeRxtout p)
  reg 0x08 p ⟨⟩ (writeIer p)
  reg 0x0C p ⟨⟩ (writeIdr p)
  reg 0x20 p ⟨⟩ (regWrite p)
  reg 0x30 p ⟨⟩ (writeFifo p)
  reg 0x18 p ⟨⟩ (regWrite p)
  reg 0x34 p ⟨⟩ (regWrite p)

/-- A conjunction whose second part is evaluated only if the first holds. -/
def andThen (c : Bool) (x : UartM Bool) : UartM Bool := if c then x else return false

/-- One round of `interruptLoop`. -/
def interruptRound : UartM PUnit := do
  let s ← get
  let out := s.mOutIntEnable && s.mOutInt
  let input ← andThen (!out && s.mIntEnable) inputReady
  let waits ← andThen (!(out || input) && s.mHasTimeout) isFifoEmpty
  if out || input then modify fun s => { s with raised := true, mInterrupting := true }
  else if waits then
    modify fun s => { s with mTimeoutCounter := s.mTimeoutCounter - 1 }
    modify fun s => { s with raised := (s.mTimeoutCounter == 0 && s.mToIntEnable) || s.raised }
  else modify fun s => { s with raised := false, mInterrupting := false }

end Xuartps

/-- What happens to the UART. -/
inductive UartOp where
  | read (p : UartPayload)
  | write (p : UartPayload)
  | interruptRound

/-- A 32-bit write to the register at `reg`. -/
def UartPayload.IsWord (p : UartPayload) (reg : ℕ) : Prop := p.offs = reg ∧ p.len = 4

instance (p : UartPayload) (reg : ℕ) : Decidable (p.IsWord reg) := inferInstanceAs (Decidable (_ ∧ _))

/-- The word that is written. -/
def UartPayload.word (p : UartPayload) : BitVec 32 := loadWord p.ptr 0

/-- Whether an interrupt is to be enabled after an operation: the last 32-bit write to IER or IDR that has its bit
was to IER. -/
def UartOp.enables (i : ℕ) (enabled : Bool) : UartOp → Bool
  | .write p =>
    if p.IsWord 0x08 ∧ p.word.getLsbD i then true else if p.IsWord 0x0C ∧ p.word.getLsbD i then false else enabled
  | .read _ | .interruptRound => enabled

/-- The interrupts that are to be enabled after operations from the start. -/
def enabledAfter (ops : List UartOp) (i : ℕ) : Bool := ops.foldl (fun b op => op.enables i b) false

namespace Xuartps

/-- An operation. -/
def run : UartOp → UartM PUnit
  | .read p => discard (read p)
  | .write p => write p
  | .interruptRound => interruptRound

/-- The state after operations, whether or not they return. -/
def after (s : Xuartps) (ops : List UartOp) : Xuartps := ops.foldl (fun s op => endState (run op s)) s

/-- The three views of the mask agree: the word that is read from IMR and the flags that drive the interrupts. -/
structure Agrees (mask : ℕ → Bool) (s : Xuartps) : Prop where
  imr : ∀ ptr, wp (read ⟨0x10, 4, ptr⟩) (fun p _ => ∀ i < 32, p.word.getLsbD i = mask i) (fun _ _ => False) s
  mOutIntEnable : s.mOutIntEnable = mask 3
  mToIntEnable : s.mToIntEnable = mask 8

/-- The three views agree with what was written, after each operation of a sequence. -/
def AgreesThroughout (s : Xuartps) (ops : List UartOp) : Prop :=
  ∀ done, done <+: ops → Agrees (enabledAfter done) (after s done)

/-- The word in IER. -/
def ier (s : Xuartps) : BitVec 32 := loadWord s.mLocalMem 0x08

/-- The word in IDR. -/
def idr (s : Xuartps) : BitVec 32 := loadWord s.mLocalMem 0x0C

/-- An operation that the three views survive. A word for IER has every bit that is enabled and none that is in IDR.
A word for IDR has every bit that is in both registers, and bit 8 if IER has it. Any other write leaves the bits
that are in IER but not in IDR, does not leave bit 3 or 8 in both registers if it starts in IER, and if it starts in
IDR comes while bit 8 is not enabled. -/
def Harmless (s : Xuartps) : UartOp → Prop
  | .write p =>
    let mem := store s.mLocalMem p.offs p.len p.ptr
    if p.IsWord 0x08 then
      ∀ i < 32, (s.ier.getLsbD i ∧ ¬ s.idr.getLsbD i → p.word.getLsbD i) ∧ (p.word.getLsbD i → ¬ s.idr.getLsbD i)
    else if p.IsWord 0x0C then
      (∀ i < 32, s.ier.getLsbD i ∧ s.idr.getLsbD i → p.word.getLsbD i) ∧ (s.ier.getLsbD 8 → p.word.getLsbD 8)
    else
      (∀ i < 32, (loadWord mem 0x08).getLsbD i ∧ ¬ (loadWord mem 0x0C).getLsbD i ↔
        s.ier.getLsbD i ∧ ¬ s.idr.getLsbD i) ∧
      (0x08 ≤ p.offs ∧ p.offs < 0x0C → ∀ i, i = 3 ∨ i = 8 →
        (loadWord mem 0x08).getLsbD i → ¬ (loadWord mem 0x0C).getLsbD i) ∧
      (0x0C ≤ p.offs ∧ p.offs < 0x10 → ¬ (s.ier.getLsbD 8 ∧ ¬ s.idr.getLsbD 8))
  | .read _ | .interruptRound => True

/-! ## What operations change -/

/-- The words in IER and IDR and the flags that mirror them. -/
structure SameMasks (s s' : Xuartps) : Prop where
  mem : ∀ a, 0x08 ≤ a → a < 0x10 → s'.mLocalMem a = s.mLocalMem a
  mOutIntEnable : s'.mOutIntEnable = s.mOutIntEnable
  mToIntEnable : s'.mToIntEnable = s.mToIntEnable

instance : IsPreorder Xuartps SameMasks where
  refl _ := ⟨fun _ _ _ => rfl, rfl, rfl⟩
  trans _ _ _ h h' := by
    refine ⟨fun a hlow hhigh => ?_, h'.mOutIntEnable.trans h.mOutIntEnable, h'.mToIntEnable.trans h.mToIntEnable⟩
    exact (h'.mem a hlow hhigh).trans (h.mem a hlow hhigh)

variable {s : Xuartps} {p : UartPayload} {R : Xuartps → Xuartps → Prop} [IsPreorder Xuartps R] {α : Type}

theorem keeps_reg {r : ℕ} {skip : α} {body : UartM α} (h : r ≤ p.offs → p.offs < r + 4 → Keeps R body) :
    Keeps R (reg r p skip body) :=
  Keeps.ite (fun hr => h hr.1 hr.2) fun _ => Keeps.pure _

theorem keeps_regRead : Keeps R (regRead p) := Keeps.getBind fun _ => Keeps.pure _

/-- Only the local memory changes, and only outside of IER and IDR. -/
theorem SameMasks.of_mem {s : Xuartps} {mem : ByteMemory}
    (h : ∀ a, 0x08 ≤ a → a < 0x10 → mem a = s.mLocalMem a) : SameMasks s { s with mLocalMem := mem } :=
  ⟨h, rfl, rfl⟩

/-- Setting a bit of another register leaves the masks. -/
theorem keeps_setBit {r off : ℕ} {v : Bool} (hr : r = 0x00 ∨ 0x10 ≤ r) : Keeps SameMasks (setBit r off v) := by
  apply Keeps.modify
  intro s
  apply SameMasks.of_mem
  intro a hlow hhigh
  unfold setBits storeLong
  apply store_frame
  omega

theorem keeps_inputReady : Keeps SameMasks inputReady := by
  apply Keeps.bind
  · exact Keeps.modify fun s => ⟨fun _ _ _ => rfl, rfl, rfl⟩
  · exact fun _ => Keeps.getBind fun s => Keeps.pure _

theorem keeps_readByte : Keeps SameMasks readByte := by
  apply keeps_inputReady.bind
  intro _ s
  apply wp.step
  rw [wp_get]
  cases s.mInFifo with
  | nil => exact refl_of SameMasks s
  | cons b mInFifo => exact ⟨fun _ _ _ => rfl, rfl, rfl⟩

theorem keeps_isFifoFull : Keeps SameMasks isFifoFull :=
  keeps_inputReady.bind fun _ => Keeps.getBind fun _ => Keeps.pure _

theorem keeps_isFifoEmpty : Keeps SameMasks isFifoEmpty := keeps_inputReady.bind fun _ => Keeps.pure _

theorem keeps_isFifoOver : Keeps SameMasks isFifoOver :=
  Keeps.getBind fun _ => keeps_inputReady.bind fun _ => Keeps.getBind fun _ => Keeps.pure _

theorem keeps_computeImr : Keeps SameMasks computeImr := by
  apply Keeps.modify
  intro s
  apply SameMasks.of_mem
  intro a hlow hhigh
  exact storeWord_frame (.inl hhigh)

theorem keeps_computeIsr : Keeps SameMasks computeIsr := by
  apply (keeps_setBit (.inr (by decide))).bind
  intro _
  apply keeps_isFifoFull.bind
  intro full
  apply (keeps_setBit (.inr (by decide))).bind
  intro _
  apply keeps_isFifoEmpty.bind
  intro empty
  apply (keeps_setBit (.inr (by decide))).bind
  intro _
  exact Keeps.getBind fun s => keeps_setBit (.inr (by decide))

theorem keeps_computeSr : Keeps SameMasks computeSr := by
  apply (keeps_setBit (.inr (by decide))).bind
  intro _
  apply keeps_isFifoFull.bind
  intro full
  apply (keeps_setBit (.inr (by decide))).bind
  intro _
  apply keeps_isFifoEmpty.bind
  intro empty
  apply (keeps_setBit (.inr (by decide))).bind
  intro _
  exact keeps_isFifoOver.bind fun fifoOver => keeps_setBit (.inr (by decide))

/-- A read leaves the masks alone. -/
theorem keeps_read : Keeps SameMasks (read p) := by
  apply (keeps_reg fun _ _ => ?_).bind
  · intro p
    apply (keeps_reg fun _ _ => keeps_regRead).bind
    intro p
    apply (keeps_reg fun _ _ => keeps_computeImr.bind fun _ => keeps_regRead).bind
    intro p
    apply (keeps_reg fun _ _ => ?_).bind
    · intro p
      apply (keeps_reg fun _ _ => keeps_readByte.bind fun _ => Keeps.pure _).bind
      intro p
      apply (keeps_reg fun _ _ => keeps_computeSr.bind fun _ => keeps_regRead).bind
      intro p
      apply (keeps_reg fun _ _ => keeps_regRead).bind
      intro p
      exact keeps_reg fun _ _ => keeps_regRead
    · apply keeps_computeIsr.bind
      intro _
      apply keeps_regRead.bind
      intro p
      exact (Keeps.modify fun s => ⟨fun _ _ _ => rfl, rfl, rfl⟩).bind fun _ => Keeps.pure _
  · apply (keeps_setBit (.inl rfl)).bind
    intro _
    exact (keeps_setBit (.inl rfl)).bind fun _ => keeps_regRead

theorem keeps_andThen {c : Bool} {x : UartM Bool} (hx : Keeps R x) : Keeps R (andThen c x) :=
  Keeps.ite (fun _ => hx) fun _ => Keeps.pure _

/-- The interrupt loop leaves the masks alone. -/
theorem keeps_interruptRound : Keeps SameMasks interruptRound := by
  apply Keeps.getBind
  intro s
  apply (keeps_andThen keeps_inputReady).bind
  intro input
  apply (keeps_andThen keeps_isFifoEmpty).bind
  intro waits
  apply Keeps.ite
  · exact fun _ => Keeps.modify fun s => ⟨fun _ _ _ => rfl, rfl, rfl⟩
  intro _
  apply Keeps.ite
  · intro _
    apply (Keeps.modify fun s => ⟨fun _ _ _ => rfl, rfl, rfl⟩).bind
    exact fun _ => Keeps.modify fun s => ⟨fun _ _ _ => rfl, rfl, rfl⟩
  · exact fun _ => Keeps.modify fun s => ⟨fun _ _ _ => rfl, rfl, rfl⟩

/-- A bit of a register is that of its word. -/
theorem getBit_eq (mem : ByteMemory) (r : ℕ) {off : ℕ} (hoff : off < 32) :
    getBit mem r off = (loadWord mem r).getLsbD off := by
  have hlong : (loadLong mem r).getLsbD off = (loadWord mem r).getLsbD off := by
    unfold loadLong
    rw [BitVec.getLsbD_append, if_pos hoff]
  have hbits : getBits mem r off 1 = if (loadLong mem r).getLsbD off then 1#64 else 0#64 := by
    unfold getBits
    have hone : (1#64 <<< 1) - 1#64 = 1#64 := by decide
    rw [hone, BitVec.and_one_eq_setWidth_ofBool_getLsbD, BitVec.getLsbD_ushiftRight, Nat.add_zero]
    cases (loadLong mem r).getLsbD off <;> rfl
  unfold getBit
  rw [hbits, hlong]
  cases (loadWord mem r).getLsbD off <;> rfl

/-- What a write does to the local memory around IER and IDR and to the flags. -/
structure AfterWrite (s : Xuartps) (p : UartPayload) (s' : Xuartps) : Prop where
  mem : ∀ a, 0x08 ≤ a → a < 0x10 → s'.mLocalMem a = store s.mLocalMem p.offs p.len p.ptr a
  mOutIntEnable : s'.mOutIntEnable =
    if 0x08 ≤ p.offs ∧ p.offs < 0x0C then s.mOutIntEnable || s'.ier.getLsbD 3
    else if 0x0C ≤ p.offs ∧ p.offs < 0x10 then s.mOutIntEnable && !s'.idr.getLsbD 3
    else s.mOutIntEnable
  mToIntEnable : s'.mToIntEnable =
    if 0x08 ≤ p.offs ∧ p.offs < 0x0C then s.mToIntEnable || s'.ier.getLsbD 8
    else if 0x0C ≤ p.offs ∧ p.offs < 0x10 then s.mToIntEnable && !s'.ier.getLsbD 8
    else s.mToIntEnable

theorem reg_pos {r : ℕ} {skip : α} {body : UartM α} (h : r ≤ p.offs ∧ p.offs < r + 4) : reg r p skip body = body :=
  if_pos h

theorem reg_neg {r : ℕ} {skip : α} {body : UartM α} (h : ¬ (r ≤ p.offs ∧ p.offs < r + 4)) :
    reg r p skip body = pure skip :=
  if_neg h

/-- A write that starts in CR runs the code of CR. -/
theorem write_cr (h : p.offs < 0x04) : write p = writeCr p := by
  unfold write
  rw [reg_pos, reg_neg, reg_neg, reg_neg, reg_neg, reg_neg, reg_neg, reg_neg, reg_neg]
  · simp only [pure_bind, bind_pure_unit]
  all_goals omega

/-- A write that starts in MR only stores its bytes. -/
theorem write_mr (h : 0x04 ≤ p.offs ∧ p.offs < 0x08) : write p = regWrite p := by
  unfold write
  rw [reg_neg, reg_pos, reg_neg, reg_neg, reg_neg, reg_neg, reg_neg, reg_neg, reg_neg]
  · simp only [pure_bind, bind_pure_unit]
  all_goals omega

/-- A write that starts in IER runs the code of IER. -/
theorem write_ier (h : 0x08 ≤ p.offs ∧ p.offs < 0x0C) : write p = writeIer p := by
  unfold write
  rw [reg_neg, reg_neg, reg_neg, reg_pos, reg_neg, reg_neg, reg_neg, reg_neg, reg_neg]
  · simp only [pure_bind, bind_pure_unit]
  all_goals omega

/-- A write that starts in IDR runs the code of IDR. -/
theorem write_idr (h : 0x0C ≤ p.offs ∧ p.offs < 0x10) : write p = writeIdr p := by
  unfold write
  rw [reg_neg, reg_neg, reg_neg, reg_neg, reg_pos, reg_neg, reg_neg, reg_neg, reg_neg]
  · simp only [pure_bind, bind_pure_unit]
  all_goals omega

/-- A write that starts behind the masks leaves them. -/
theorem keeps_write (h : 0x10 ≤ p.offs) : Keeps SameMasks (write p) := by
  have hmem : Keeps SameMasks (regWrite p) := by
    apply Keeps.modify
    intro s
    apply SameMasks.of_mem
    intro a hlow hhigh
    apply store_frame
    omega
  have hrxtout : Keeps SameMasks (writeRxtout p) :=
    hmem.bind fun _ => Keeps.modify fun s => ⟨fun _ _ _ => rfl, rfl, rfl⟩
  unfold write
  apply (keeps_reg fun _ _ => ?_).bind
  · intro _
    apply (keeps_reg fun _ _ => hmem).bind
    intro _
    apply (keeps_reg fun _ _ => hrxtout).bind
    intro _
    apply (keeps_reg fun _ _ => ?_).bind
    · intro _
      apply (keeps_reg fun _ _ => ?_).bind
      · intro _
        apply (keeps_reg fun _ _ => hmem).bind
        intro _
        apply (keeps_reg fun _ _ => Keeps.modify fun s => ⟨fun _ _ _ => rfl, rfl, rfl⟩).bind
        intro _
        apply (keeps_reg fun _ _ => hmem).bind
        exact fun _ => keeps_reg fun _ _ => hmem
      · omega
    · omega
  · omega

/-- A write after which only the memory differs has the effect described. -/
theorem SameMasks.afterWrite {s' : Xuartps} (h : SameMasks { s with mLocalMem := store s.mLocalMem p.offs p.len p.ptr } s')
    (hoffs : p.offs < 0x08 ∨ 0x10 ≤ p.offs) : AfterWrite s p s' := by
  have hier : ¬ (0x08 ≤ p.offs ∧ p.offs < 0x0C) := by omega
  have hidr : ¬ (0x0C ≤ p.offs ∧ p.offs < 0x10) := by omega
  constructor
  · exact h.mem
  · rw [if_neg hier, if_neg hidr]
    exact h.mOutIntEnable
  · rw [if_neg hier, if_neg hidr]
    exact h.mToIntEnable

/-- Each write has the effect described. -/
theorem afterWrite (p : UartPayload) (s : Xuartps) :
    wp (write p) (fun _ => AfterWrite s p) (fun _ => AfterWrite s p) s := by
  by_cases hcr : p.offs < 0x04
  · rw [write_cr hcr]
    apply SameMasks.afterWrite _ (.inl (Nat.lt_trans hcr (by decide)))
    exact ⟨fun _ _ _ => rfl, rfl, rfl⟩
  by_cases hmr : p.offs < 0x08
  · rw [write_mr ⟨Nat.le_of_not_lt hcr, hmr⟩]
    exact (refl_of SameMasks _).afterWrite (.inl hmr)
  by_cases hier : p.offs < 0x0C
  · have hoffs : 0x08 ≤ p.offs ∧ p.offs < 0x0C := ⟨Nat.le_of_not_lt hmr, hier⟩
    rw [write_ier hoffs]
    constructor
    · exact fun _ _ _ => rfl
    · rw [if_pos hoffs]
      exact congrArg (s.mOutIntEnable || ·) (getBit_eq _ _ (by decide))
    · rw [if_pos hoffs]
      exact congrArg (s.mToIntEnable || ·) (getBit_eq _ _ (by decide))
  by_cases hidr : p.offs < 0x10
  · have hoffs : 0x0C ≤ p.offs ∧ p.offs < 0x10 := ⟨Nat.le_of_not_lt hier, hidr⟩
    have hneg : ¬ (0x08 ≤ p.offs ∧ p.offs < 0x0C) := by omega
    rw [write_idr hoffs]
    constructor
    · exact fun _ _ _ => rfl
    · rw [if_neg hneg, if_pos hoffs]
      exact congrArg (s.mOutIntEnable && !·) (getBit_eq _ _ (by decide))
    · rw [if_neg hneg, if_pos hoffs]
      exact congrArg (s.mToIntEnable && !·) (getBit_eq _ _ (by decide))
  have hbehind := Nat.le_of_not_lt hidr
  have hsame (s' : Xuartps) (h : SameMasks s s') : AfterWrite s p s' := by
    apply SameMasks.afterWrite _ (.inr hbehind)
    refine ⟨fun a hlow hhigh => ?_, h.mOutIntEnable, h.mToIntEnable⟩
    rw [h.mem a hlow hhigh]
    exact (store_frame (.inl (Nat.lt_of_lt_of_le hhigh hbehind))).symm
  exact (keeps_write hbehind s).imp (fun _ => hsame) fun _ => hsame

/-! ## The three views -/

/-- A register that the access does not start in is skipped. -/
theorem wp_skip {Q : α → Xuartps → Prop} {E : String → Xuartps → Prop} {r : ℕ} {skip : α} {body : UartM α}
    (h : ¬ (r ≤ p.offs ∧ p.offs < r + 4)) (hQ : Q skip s) : wp (reg r p skip body) Q E s := by
  rw [reg_neg h]
  exact hQ

/-- IMR reads as IER without the bits of IDR. -/
theorem wp_read_imr (hoffs : p.offs = 0x10) (hlen : p.len = 4) (s : Xuartps) :
    wp (read p) (fun p _ => p.word = s.ier &&& ~~~s.idr) (fun _ _ => False) s := by
  unfold read
  apply wp.step
  apply wp_skip (by omega)
  apply wp.step
  apply wp_skip (by omega)
  rw [reg_pos (by omega)]
  apply wp.step
  apply wp.step
  unfold computeImr
  rw [wp_modify]
  unfold regRead
  apply wp.step
  rw [wp_get, wp_pure]
  apply wp.step
  apply wp_skip (by dsimp only; omega)
  apply wp.step
  apply wp_skip (by dsimp only; omega)
  apply wp.step
  apply wp_skip (by dsimp only; omega)
  apply wp.step
  apply wp_skip (by dsimp only; omega)
  apply wp_skip (by dsimp only; omega)
  have hword (mem : ByteMemory) : loadWord (fun i => if i < p.len then mem (p.offs + i) else p.ptr i) 0 =
      loadWord mem 0x10 := by
    unfold loadWord
    rw [hoffs, hlen]
    rfl
  exact (hword _).trans (loadWord_storeWord _)

/-- The three views agree when the words and the flags give the mask. -/
theorem agrees_iff (mask : ℕ → Bool) (s : Xuartps) :
    Agrees mask s ↔ (∀ i < 32, (s.ier.getLsbD i && !s.idr.getLsbD i) = mask i) ∧ s.mOutIntEnable = mask 3 ∧
      s.mToIntEnable = mask 8 := by
  have hbit {i : ℕ} (hi : i < 32) : (s.ier &&& ~~~s.idr).getLsbD i = (s.ier.getLsbD i && !s.idr.getLsbD i) := by
    simp [hi]
  constructor
  · intro h
    refine ⟨fun i hi => ?_, h.mOutIntEnable, h.mToIntEnable⟩
    have hread := (wp_read_imr rfl rfl s).and (h.imr fun _ => 0)
    cases hrun : read ⟨0x10, 4, fun _ => 0⟩ s with
    | ok p s' =>
      obtain ⟨hword, hmask⟩ := hread.of_ok hrun
      rw [← hbit hi, ← hword]
      exact hmask i hi
    | error e s' => exact (hread.of_error hrun).elim
  · intro ⟨himr, hout, hto⟩
    refine ⟨fun ptr => ?_, hout, hto⟩
    apply (wp_read_imr rfl rfl s).mono
    intro p _ hword i hi
    rw [hword, hbit hi]
    exact himr i hi

/-- What leaves the words and the flags alone leaves the views alone. -/
theorem SameMasks.agrees_iff {s' : Xuartps} (h : SameMasks s s') (mask : ℕ → Bool) : Agrees mask s' ↔ Agrees mask s := by
  have hier : s'.ier = s.ier := loadWord_congr fun i hi => h.mem _ (by omega) (by omega)
  have hidr : s'.idr = s.idr := loadWord_congr fun i hi => h.mem _ (by omega) (by omega)
  rw [Xuartps.agrees_iff, Xuartps.agrees_iff, hier, hidr, h.mOutIntEnable, h.mToIntEnable]

/-- A word that was just stored reads back. -/
theorem loadWord_store_self (mem : ByteMemory) (r : ℕ) (ptr : ℕ → BitVec 8) :
    loadWord (store mem r 4 ptr) r = loadWord ptr 0 := by
  unfold loadWord
  rw [store_add (by decide), store_add (by decide), store_add (by decide)]
  exact congrArg (_ ++ ·) (store_add (i := 0) (by decide))

/-- After a write IER holds the word that the memory has there with the bytes written. -/
theorem AfterWrite.ier_eq {s' : Xuartps} (h : AfterWrite s p s') :
    s'.ier = loadWord (store s.mLocalMem p.offs p.len p.ptr) 0x08 :=
  loadWord_congr fun i hi => h.mem _ (by omega) (by omega)

/-- After a write IDR holds the word that the memory has there with the bytes written. -/
theorem AfterWrite.idr_eq {s' : Xuartps} (h : AfterWrite s p s') :
    s'.idr = loadWord (store s.mLocalMem p.offs p.len p.ptr) 0x0C :=
  loadWord_congr fun i hi => h.mem _ (by omega) (by omega)

variable {mask : ℕ → Bool}

/-- A word for IER keeps the agreement exactly when it repeats the enabled bits and enables none that IDR
disables. -/
theorem agrees_ier {s' : Xuartps} (h : Agrees mask s) (hw : AfterWrite s p s') (hp : p.IsWord 0x08) :
    Agrees (fun i => p.word.getLsbD i || mask i) s' ↔
      ∀ i < 32, (s.ier.getLsbD i ∧ ¬ s.idr.getLsbD i → p.word.getLsbD i) ∧ (p.word.getLsbD i → ¬ s.idr.getLsbD i) := by
  obtain ⟨hoffs, hlen⟩ := hp
  obtain ⟨himr, hout, hto⟩ := (agrees_iff mask s).1 h
  have hier : s'.ier = p.word := by
    rw [hw.ier_eq, hoffs, hlen]
    exact loadWord_store_self _ _ _
  have hidr : s'.idr = s.idr := by
    rw [hw.idr_eq, hoffs, hlen]
    exact loadWord_store_frame (by decide)
  have hrange : 0x08 ≤ p.offs ∧ p.offs < 0x0C := by omega
  rw [agrees_iff, hw.mOutIntEnable, hw.mToIntEnable, if_pos hrange, if_pos hrange, hier, hidr, hout, hto,
    Bool.or_comm, Bool.or_comm (mask 8), and_iff_left ⟨rfl, rfl⟩]
  apply forall₂_congr
  intro i hi
  rw [← himr i hi]
  cases s.ier.getLsbD i <;> cases s.idr.getLsbD i <;> cases p.word.getLsbD i <;> decide

/-- A word for IDR keeps the agreement exactly when it repeats the disabled bits that IER enables, and
bit 8 if IER has it. -/
theorem agrees_idr {s' : Xuartps} (h : Agrees mask s) (hw : AfterWrite s p s') (hp : p.IsWord 0x0C) :
    Agrees (fun i => mask i && !p.word.getLsbD i) s' ↔
      (∀ i < 32, s.ier.getLsbD i ∧ s.idr.getLsbD i → p.word.getLsbD i) ∧ (s.ier.getLsbD 8 → p.word.getLsbD 8) := by
  obtain ⟨hoffs, hlen⟩ := hp
  obtain ⟨himr, hout, hto⟩ := (agrees_iff mask s).1 h
  have hier : s'.ier = s.ier := by
    rw [hw.ier_eq, hoffs, hlen]
    exact loadWord_store_frame (by decide)
  have hidr : s'.idr = p.word := by
    rw [hw.idr_eq, hoffs, hlen]
    exact loadWord_store_self _ _ _
  have hnot : ¬ (0x08 ≤ p.offs ∧ p.offs < 0x0C) := by omega
  have hrange : 0x0C ≤ p.offs ∧ p.offs < 0x10 := by omega
  have hword : (∀ i < 32, (s.ier.getLsbD i && !p.word.getLsbD i) = (mask i && !p.word.getLsbD i)) ↔
      ∀ i < 32, s.ier.getLsbD i ∧ s.idr.getLsbD i → p.word.getLsbD i := by
    apply forall₂_congr
    intro i hi
    rw [← himr i hi]
    cases s.ier.getLsbD i <;> cases s.idr.getLsbD i <;> cases p.word.getLsbD i <;> decide
  rw [agrees_iff, hw.mOutIntEnable, hw.mToIntEnable, if_neg hnot, if_neg hnot, if_pos hrange, if_pos hrange, hier, hidr,
    hout, hto, hword, and_iff_right rfl, ← himr 8 (by decide)]
  apply and_congr_right
  intro hshared
  have hbit := hshared 8 (by decide)
  -- a bit in both registers is in the word that is written, so only an enabled interrupt can make a difference
  cases hier8 : s.ier.getLsbD 8 with
  | false => exact iff_of_true rfl nofun
  | true =>
    cases hidr8 : s.idr.getLsbD 8 with
    | true => exact iff_of_true rfl fun _ => hbit ⟨hier8, hidr8⟩
    | false => cases p.word.getLsbD 8 <;> decide

/-- Any other write keeps the agreement exactly when it leaves the mask that the words give, and the
flags with it. -/
theorem agrees_other {s' : Xuartps} (h : Agrees mask s) (hw : AfterWrite s p s') :
    Agrees mask s' ↔
      (∀ i < 32, s'.ier.getLsbD i ∧ ¬ s'.idr.getLsbD i ↔ s.ier.getLsbD i ∧ ¬ s.idr.getLsbD i) ∧
      (0x08 ≤ p.offs ∧ p.offs < 0x0C → ∀ i, i = 3 ∨ i = 8 → s'.ier.getLsbD i → ¬ s'.idr.getLsbD i) ∧
      (0x0C ≤ p.offs ∧ p.offs < 0x10 → ¬ (s.ier.getLsbD 8 ∧ ¬ s.idr.getLsbD 8)) := by
  obtain ⟨himr, hout, hto⟩ := (agrees_iff mask s).1 h
  have hword : (∀ i < 32, (s'.ier.getLsbD i && !s'.idr.getLsbD i) = mask i) ↔
      ∀ i < 32, s'.ier.getLsbD i ∧ ¬ s'.idr.getLsbD i ↔ s.ier.getLsbD i ∧ ¬ s.idr.getLsbD i := by
    apply forall₂_congr
    intro i hi
    rw [← himr i hi, Bool.eq_iff_iff]
    simp
  rw [agrees_iff, hword]
  apply and_congr_right
  intro hsame
  have himr' (i : ℕ) (hi : i < 32) : (s'.ier.getLsbD i && !s'.idr.getLsbD i) = mask i := hword.2 hsame i hi
  rw [hw.mOutIntEnable, hw.mToIntEnable, hout, hto]
  by_cases hier : 0x08 ≤ p.offs ∧ p.offs < 0x0C
  · have hidr : ¬ (0x0C ≤ p.offs ∧ p.offs < 0x10) := by omega
    rw [if_pos hier, if_pos hier, ← himr' 3 (by decide), ← himr' 8 (by decide)]
    have hbit (a b : Bool) : (a && !b || a) = (a && !b) ↔ (a → ¬ b) := by cases a <;> cases b <;> decide
    rw [hbit, hbit]
    constructor
    · intro ⟨h3, h8⟩
      refine ⟨fun _ i hi => ?_, fun h => absurd h hidr⟩
      obtain rfl | rfl := hi
      · exact h3
      · exact h8
    · intro ⟨hbits, _⟩
      exact ⟨hbits hier 3 (.inl rfl), hbits hier 8 (.inr rfl)⟩
  rw [if_neg hier, if_neg hier]
  by_cases hidr : 0x0C ≤ p.offs ∧ p.offs < 0x10
  · rw [if_pos hidr, if_pos hidr, ← himr' 3 (by decide), ← himr' 8 (by decide), ← hsame 8 (by decide)]
    have hkeep (a b : Bool) : (a && !b && !b) = (a && !b) := by cases a <;> cases b <;> rfl
    have hclear (a b : Bool) : (a && !b && !a) = (a && !b) ↔ ¬ (a ∧ ¬ b) := by cases a <;> cases b <;> decide
    rw [hkeep, hclear]
    constructor
    · intro ⟨_, h8⟩
      exact ⟨fun h => absurd h hier, fun _ => h8⟩
    · intro ⟨_, h8⟩
      exact ⟨rfl, h8 hidr⟩
  · rw [if_neg hidr, if_neg hidr]
    exact iff_of_true ⟨rfl, rfl⟩ ⟨fun h => absurd h hier, fun h => absurd h hidr⟩

/-- The views agree after an operation exactly when it is harmless. -/
theorem agrees_run_iff (h : Agrees mask s) (op : UartOp) :
    Agrees (fun i => op.enables i (mask i)) (endState (run op s)) ↔ Harmless s op := by
  cases op with
  | read p =>
    have hsame : SameMasks s (endState (run (.read p) s)) := wp.endState ((keeps_read.bind fun _ => Keeps.pure _) s)
    exact iff_of_true ((hsame.agrees_iff mask).2 h) trivial
  | interruptRound =>
    have hsame : SameMasks s (endState (run .interruptRound s)) := wp.endState (keeps_interruptRound s)
    exact iff_of_true ((hsame.agrees_iff mask).2 h) trivial
  | write p =>
    have hw : AfterWrite s p (endState (write p s)) := wp.endState (afterWrite p s)
    unfold Harmless UartOp.enables
    dsimp only
    by_cases hier : p.IsWord 0x08
    · have hidr : ¬ p.IsWord 0x0C := by
        intro hidr
        cases hier.1.symm.trans hidr.1
      rw [if_pos hier, ← agrees_ier h hw hier]
      have henables (i : ℕ) : (if p.IsWord 0x08 ∧ p.word.getLsbD i then true
          else if p.IsWord 0x0C ∧ p.word.getLsbD i then false else mask i) = (p.word.getLsbD i || mask i) := by
        cases p.word.getLsbD i <;> simp [hier, hidr]
      simp only [henables]
      rfl
    rw [if_neg hier]
    by_cases hidr : p.IsWord 0x0C
    · rw [if_pos hidr, ← agrees_idr h hw hidr]
      have henables (i : ℕ) : (if p.IsWord 0x08 ∧ p.word.getLsbD i then true
          else if p.IsWord 0x0C ∧ p.word.getLsbD i then false else mask i) = (mask i && !p.word.getLsbD i) := by
        cases p.word.getLsbD i <;> simp [hier, hidr]
      simp only [henables]
      rfl
    rw [if_neg hidr, ← hw.ier_eq, ← hw.idr_eq, ← agrees_other h hw]
    have henables (i : ℕ) : (if p.IsWord 0x08 ∧ p.word.getLsbD i then true
        else if p.IsWord 0x0C ∧ p.word.getLsbD i then false else mask i) = mask i := by
      simp [hier, hidr]
    simp only [henables]
    rfl

/-- Before anything is written the views agree unless the memory happens to have a bit in IER that IDR lacks. -/
theorem agrees_fresh_iff (mem : ByteMemory) (mRxEnable mTxEnable : Bool) (mChannel : List (List (BitVec 8))) :
    Agrees (enabledAfter []) (fresh mem mRxEnable mTxEnable mChannel) ↔
      ∀ i < 32, (loadWord mem 0x08).getLsbD i → (loadWord mem 0x0C).getLsbD i := by
  have hier : (fresh mem mRxEnable mTxEnable mChannel).ier = loadWord mem 0x08 :=
    loadWord_congr fun i hi => (storeWord_frame (by omega)).trans (storeWord_frame (by omega))
  have hidr : (fresh mem mRxEnable mTxEnable mChannel).idr = loadWord mem 0x0C :=
    loadWord_congr fun i hi => (storeWord_frame (by omega)).trans (storeWord_frame (by omega))
  rw [agrees_iff, hier, hidr, and_iff_left ⟨rfl, rfl⟩]
  apply forall₂_congr
  intro i hi
  unfold enabledAfter
  rw [List.foldl_nil]
  cases (loadWord mem 0x08).getLsbD i <;> cases (loadWord mem 0x0C).getLsbD i <;> decide

/-! ## Every history of writes -/

/-- The mask that is read and the flags that drive the interrupts agree with what was written, after each operation
of a sequence, exactly when no bit is in the fresh IER but not in the fresh IDR and every operation is harmless. -/
theorem agreesThroughout_iff (mem : ByteMemory) (mRxEnable mTxEnable : Bool) (mChannel : List (List (BitVec 8)))
    (ops : List UartOp) :
    AgreesThroughout (fresh mem mRxEnable mTxEnable mChannel) ops ↔
      (∀ i < 32, (loadWord mem 0x08).getLsbD i → (loadWord mem 0x0C).getLsbD i) ∧
        AtEach (fun done op => Harmless (after (fresh mem mRxEnable mTxEnable mChannel) done) op) ops := by
  rw [← agrees_fresh_iff mem mRxEnable mTxEnable mChannel]
  apply forall_prefix_iff fun done s => Agrees (enabledAfter done) s
  intro done op s h
  have henabled : enabledAfter (done ++ [op]) = fun i => op.enables i (enabledAfter done i) := by
    funext i
    unfold enabledAfter
    rw [List.foldl_append]
    rfl
  rw [henabled]
  exact agrees_run_iff h op

/-- A word that is written to a register. -/
def writeWord (offs : ℕ) (w : BitVec 32) : UartOp := .write ⟨offs, 4, wordByte w⟩

/-- Interrupt 3 is enabled and then interrupt 0: the mask that is read has interrupt 0 only. -/
theorem not_agreesThroughout_twice :
    ¬ AgreesThroughout (fresh (fun _ => 0#8) false false []) [writeWord 0x08 8#32, writeWord 0x08 1#32] := by
  intro h
  have hlast := ((agrees_iff _ _).1 (h _ List.prefix_rfl)).1 3 (by decide)
  revert hlast
  decide +kernel

end Xuartps

end Vpsim.Peripherals
