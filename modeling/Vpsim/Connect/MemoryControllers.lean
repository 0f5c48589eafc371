import Vpsim.Connect.Mesh
import Vpsim.Lib.Run

/-!
# Memory controllers and the interleaving of memory

Components register with the interconnect before any traffic. `set_first_memory_controller` notes
how many were registered before the first memory controller. An interleaved address selects a
registered component by its number, counted from the index that the caller passes in: 0 in the
latency model without contention, the noted number in the contention model. The number itself is
a remainder by the number of all registered components.
-/

namespace Vpsim.Connect

open Vpsim.Lib

/-- Largest value of `idx_t`: `NULL_IDX`, and `UINT32_MAX` for an index that was not set. -/
def maxIdx : ℕ := idxSize - 1

/-- The registration of components. -/
abbrev RegisterM := EStateM NocFault NocConfig

/-- `register_mem_ctrl`. -/
def registerMemCtrl (base size : ℕ) (pos : MeshPos) : RegisterM PUnit := do
  let c ← get
  if pos.xId = maxIdx ∨ pos.yId = maxIdx then throw .assertion
  else if c.mX < pos.xId ∨ c.mY < pos.yId then throw .incorrectCoordinates
  else modify fun c => { c with addressIDs := c.addressIDs ++ [AddressRange.mk base size pos] }

/-- `set_first_memory_controller`. -/
def setFirstMemoryController : RegisterM PUnit :=
  modify fun c =>
    if c.indexFirstMemoryController = maxIdx then
      { c with indexFirstMemoryController := c.addressIDs.length % idxSize }
    else c

/-- The calls that prepare the selection of memory controllers. -/
inductive Registration
  | setFirstMemoryController
  | device (base size : ℕ) (pos : MeshPos)
  | memoryController (base size : ℕ) (pos : MeshPos)
  | setRamBaseAddr (firstAddr : ℕ)
  | setRamLastAddr (lastAddr : ℕ)

/-- One call. -/
def register : Registration → RegisterM PUnit
  | .setFirstMemoryController => setFirstMemoryController
  | .device base size pos => registerMemCtrl base size pos
  | .memoryController base size pos => registerMemCtrl base size pos
  | .setRamBaseAddr firstAddr => modify fun c => { c with ramBaseAddr := firstAddr }
  | .setRamLastAddr lastAddr => modify fun c => { c with ramLastAddr := lastAddr }

/-- The calls of `DynamicNoCMemoryController::finalize`, given the bounds of the RAM so far. -/
def finalize (ramBase ramLast base size : ℕ) (pos : MeshPos) : List Registration :=
  [.setFirstMemoryController, .memoryController base size pos] ++
    (if base < ramBase then [.setRamBaseAddr base] else []) ++
    (if ramLast < (base + size) % countSize then [.setRamLastAddr ((base + size) % countSize)] else [])

/-- The first address range that contains the address, with its index. -/
def findRange (addr : ℕ) : List AddressRange → ℕ → Option (MeshPos × ℕ)
  | [], _ => none
  | mapping :: rest, index =>
    if mapping.base ≤ addr ∧ addr < (mapping.size + mapping.base) % countSize then some (mapping.pos, index)
    else findRange addr rest (index + 1)

/-- `get_noc_pos_by_address_without_interleave`: the position and the index found. -/
def getNocPosByAddressWithoutInterleave (c : NocConfig) (addr : ℕ) : Except NocFault (MeshPos × ℕ) :=
  match findRange addr c.addressIDs 0 with
  | some found => .ok found
  | none => .error (.unknownAddress addr)

/-- The index that an interleaved address selects, counted from the one passed in. -/
def interleavedIndex (c : NocConfig) (addr index : ℕ) : ℕ :=
  (index + (addr - c.ramBaseAddr) / c.memoryInterleaveLength % c.addressIDs.length) % countSize

/-- `get_noc_pos_by_address_with_interleave`. -/
def getNocPosByAddressWithInterleave (c : NocConfig) (addr index : ℕ) : Except NocFault (MeshPos × ℕ) :=
  if c.ramBaseAddr ≤ addr ∧ addr < c.ramLastAddr then
    match c.addressIDs[interleavedIndex c addr index]? with
    | some mapping => .ok (mapping.pos, interleavedIndex c addr index)
    | none => .error .outOfRange
  else getNocPosByAddressWithoutInterleave c addr

/-- `get_noc_pos_by_address`, which the constructor chooses. -/
def getNocPosByAddress (c : NocConfig) (addr index : ℕ) : Except NocFault (MeshPos × ℕ) :=
  if c.memoryInterleaveLength = 0 then getNocPosByAddressWithoutInterleave c addr
  else getNocPosByAddressWithInterleave c addr index

/-- The position of an id. -/
def findId (id : ℕ) (ids : List (ℕ × MeshPos)) : Option MeshPos := (ids.find? fun mapping => mapping.1 = id).map Prod.snd

/-- `get_noc_pos_by_id`. -/
def getNocPosById (c : NocConfig) (id : ℕ) : Except NocFault MeshPos :=
  if id = maxIdx then .error .assertion
  else match findId id c.cpuIDs with
    | some pos => .ok pos
    | none => .error (.unknownId id)

/-- `get_device_noc_pos_by_id`. -/
def getDeviceNocPosById (c : NocConfig) (id : ℕ) : Except NocFault MeshPos :=
  if id = maxIdx then .error .assertion
  else match findId id c.deviceIDs with
    | some pos => .ok pos
    | none => .error (.unknownDeviceId id)

/-- `get_home_pos_by_address`, which the constructor chooses. -/
def getHomePosByAddress (c : NocConfig) (addr : ℕ) : Except NocFault MeshPos :=
  if c.slcInterleaveLength = 0 then
    match findRange addr c.homeIDs 0 with
    | some found => .ok found.1
    | none => .error (.unknownAddress addr)
  else if c.ramBaseAddr ≤ addr ∧ addr < c.ramLastAddr then
    match c.homeIDs[(addr - c.ramBaseAddr) / c.slcInterleaveLength % c.homeIDs.length]? with
    | some mapping => .ok mapping.pos
    | none => .error .outOfRange
  else .error (.unknownAddress addr)

/-- The memory controller of an address in `computeNoCLatency`. -/
def controllerWithoutContention (c : NocConfig) (addr : ℕ) : Except NocFault (MeshPos × ℕ) :=
  getNocPosByAddress c addr 0

/-- The memory controller of an address in `GetDestinations`. -/
def controllerWithContention (c : NocConfig) (addr : ℕ) : Except NocFault (MeshPos × ℕ) :=
  getNocPosByAddress c addr c.indexFirstMemoryController

/-- The targets of a message that goes to upper caches. -/
def idTargets (c : NocConfig) (dstIds : List ℕ) : List ℕ := if c.isCoherent then dstIds else c.cacheOutputs

/-- `computeNoCLatency`: the distance, the largest one of a broadcast. -/
def computeNoCLatency (c : NocConfig) (isHome isIdMapped : Bool) (addr srcId : ℕ) (dstIds : List ℕ) :
    Except NocFault ℕ := do
  let srcPos ← getNocPosById c srcId
  if isIdMapped then
    (idTargets c dstIds).foldlM (fun dist id => do
      let dstPos ← getNocPosById c id
      return max dist (meshDistance srcPos dstPos)) 0
  else if isHome then
    let dstPos ← getHomePosByAddress c addr
    return meshDistance srcPos dstPos
  else
    let (dstPos, _) ← controllerWithoutContention c addr
    return meshDistance srcPos dstPos

/-- The entry of `mAddressIDs` that a call adds. -/
def Registration.entry : Registration → Option AddressRange
  | .device base size pos => some (.mk base size pos)
  | .memoryController base size pos => some (.mk base size pos)
  | _ => none

/-- The call registers a memory controller. -/
def Registration.isController : Registration → Bool
  | .memoryController _ _ _ => true
  | _ => false

/-- The calls that registered the entries of `mAddressIDs`, in their order. -/
def registered (calls : List Registration) : List Registration := calls.filter fun call => call.entry.isSome

/-- The entry with this number is that of a memory controller. -/
def ControllerAt (calls : List Registration) (index : ℕ) : Prop :=
  (registered calls)[index]?.map Registration.isController = some true

instance (calls : List Registration) (index : ℕ) : Decidable (ControllerAt calls index) :=
  inferInstanceAs (Decidable (_ = _))

/-- After these calls both models select the same memory controller, not before the first one. -/
def SelectsController (c : NocConfig) (calls : List Registration) (addr : ℕ) : Prop :=
  ∃ pos index, controllerWithoutContention c addr = .ok (pos, index) ∧
    controllerWithContention c addr = .ok (pos, index) ∧
    c.indexFirstMemoryController ≤ index ∧ index < c.addressIDs.length ∧ ControllerAt calls index

section Selection

variable {c : NocConfig} {calls : List Registration} {addr index : ℕ}

/-- A search for an interleaved address of the RAM that finds a component finds the one of its
interleaved index. -/
theorem getNocPosByAddress_eq_ok (hinterleave : c.memoryInterleaveLength ≠ 0)
    (hram : c.ramBaseAddr ≤ addr ∧ addr < c.ramLastAddr) {found : MeshPos × ℕ}
    (h : getNocPosByAddress c addr index = .ok found) : found.2 = interleavedIndex c addr index := by
  unfold getNocPosByAddress getNocPosByAddressWithInterleave at h
  rw [if_neg hinterleave, if_pos hram] at h
  split at h
  · cases h
    rfl
  · cases h

/-- An index in range selects a component. -/
theorem getNocPosByAddress_of_lt (hinterleave : c.memoryInterleaveLength ≠ 0)
    (hram : c.ramBaseAddr ≤ addr ∧ addr < c.ramLastAddr)
    (hindex : interleavedIndex c addr index < c.addressIDs.length) :
    ∃ pos, getNocPosByAddress c addr index = .ok (pos, interleavedIndex c addr index) := by
  unfold getNocPosByAddress getNocPosByAddressWithInterleave
  rw [if_neg hinterleave, if_pos hram, List.getElem?_eq_getElem hindex]
  exact ⟨_, rfl⟩

/-- Two start indices below the size of `idx_t` select the same component only if they are equal. -/
theorem interleavedIndex_zero_eq (hindex : index < idxSize)
    (h : interleavedIndex c addr 0 = interleavedIndex c addr index) : index = 0 := by
  unfold interleavedIndex countSize at h
  unfold idxSize at hindex
  omega

/-- Counted from 0, a 64-bit address selects the component of its stride, around the registered ones. -/
theorem interleavedIndex_zero (haddr : addr < countSize) :
    interleavedIndex c addr 0 = (addr - c.ramBaseAddr) / c.memoryInterleaveLength % c.addressIDs.length := by
  unfold interleavedIndex
  rw [Nat.zero_add]
  refine Nat.mod_eq_of_lt (Nat.lt_of_le_of_lt ?_ haddr)
  exact (Nat.mod_le _ _).trans ((Nat.div_le_self _ _).trans (Nat.sub_le _ _))

/-- For an address both models select the same memory controller exactly when the first one has index 0 and the
component of its stride is a memory controller. -/
theorem selectsController_iff (hinterleave : c.memoryInterleaveLength ≠ 0) (hregistered : c.addressIDs ≠ [])
    (hindex : c.indexFirstMemoryController < idxSize) (hram : c.ramBaseAddr ≤ addr ∧ addr < c.ramLastAddr)
    (haddr : addr < countSize) :
    SelectsController c calls addr ↔ c.indexFirstMemoryController = 0 ∧
      ControllerAt calls ((addr - c.ramBaseAddr) / c.memoryInterleaveLength % c.addressIDs.length) := by
  rw [← interleavedIndex_zero haddr]
  constructor
  · rintro ⟨pos, index, hwithout, hwith, -, -, hcontroller⟩
    have hzero := getNocPosByAddress_eq_ok hinterleave hram hwithout
    have hfirst := getNocPosByAddress_eq_ok hinterleave hram hwith
    exact ⟨interleavedIndex_zero_eq hindex (hzero.symm.trans hfirst), hzero ▸ hcontroller⟩
  · rintro ⟨hzero, hcontroller⟩
    have hlt : interleavedIndex c addr 0 < c.addressIDs.length := by
      rw [interleavedIndex_zero haddr]
      exact Nat.mod_lt _ (List.length_pos_of_ne_nil hregistered)
    obtain ⟨pos, hpos⟩ := getNocPosByAddress_of_lt hinterleave hram hlt
    refine ⟨pos, _, hpos, ?_, ?_, hlt, hcontroller⟩
    · unfold controllerWithContention
      rw [hzero]
      exact hpos
    · rw [hzero]
      exact Nat.zero_le _

/-- The components that the addresses of the RAM select are those whose number times the interleave length
stays within the RAM. -/
theorem forall_stride_iff (hinterleave : c.memoryInterleaveLength ≠ 0) (hregistered : c.addressIDs ≠ [])
    {P : ℕ → Prop} :
    (∀ addr, c.ramBaseAddr ≤ addr → addr < c.ramLastAddr →
      P ((addr - c.ramBaseAddr) / c.memoryInterleaveLength % c.addressIDs.length)) ↔
      ∀ i < c.addressIDs.length, i * c.memoryInterleaveLength < c.ramLastAddr - c.ramBaseAddr → P i := by
  have hpos : 0 < c.memoryInterleaveLength := Nat.pos_of_ne_zero hinterleave
  constructor
  · intro hall i hi hin
    have hstride := hall (c.ramBaseAddr + i * c.memoryInterleaveLength) (Nat.le_add_right _ _) (by omega)
    rw [Nat.add_sub_cancel_left, Nat.mul_div_cancel _ hpos, Nat.mod_eq_of_lt hi] at hstride
    exact hstride
  · intro hall addr hbase hlast
    refine hall _ (Nat.mod_lt _ (List.length_pos_of_ne_nil hregistered)) ?_
    calc (addr - c.ramBaseAddr) / c.memoryInterleaveLength % c.addressIDs.length * c.memoryInterleaveLength
        ≤ (addr - c.ramBaseAddr) / c.memoryInterleaveLength * c.memoryInterleaveLength :=
          Nat.mul_le_mul_right _ (Nat.mod_le _ _)
      _ ≤ addr - c.ramBaseAddr := Nat.div_mul_le_self _ _
      _ < c.ramLastAddr - c.ramBaseAddr := by omega

end Selection

/-- What registration keeps: the interleaving is not changed, components stay registered, and the
noted index is an `idx_t`. -/
structure Registers (c c' : NocConfig) : Prop where
  interleave : c'.memoryInterleaveLength = c.memoryInterleaveLength
  registered : c.addressIDs ≠ [] → c'.addressIDs ≠ []
  index : c.indexFirstMemoryController < idxSize → c'.indexFirstMemoryController < idxSize

instance : IsPreorder NocConfig Registers where
  refl _ := ⟨rfl, id, id⟩
  trans _ _ _ h h' := ⟨h'.interleave.trans h.interleave, h'.registered ∘ h.registered, h'.index ∘ h.index⟩

/-- Registering a component keeps the interleaving and the noted index, and adds an entry. -/
theorem keeps_registerMemCtrl (base size : ℕ) (pos : MeshPos) : Keeps Registers (registerMemCtrl base size pos) := by
  apply Keeps.getBind
  intro c
  apply Keeps.ite
  · exact fun _ => Keeps.throw _
  · intro _
    apply Keeps.ite
    · exact fun _ => Keeps.throw _
    · intro _
      exact Keeps.modify fun _ =>
        ⟨rfl, fun _ => List.append_ne_nil_of_right_ne_nil _ (List.cons_ne_nil _ _), id⟩

/-- No call changes the interleaving or takes an entry away, and the noted index stays an `idx_t`. -/
theorem keeps_register (call : Registration) : Keeps Registers (register call) := by
  cases call with
  | setFirstMemoryController =>
    apply Keeps.modify
    intro c
    split
    · exact ⟨rfl, id, fun _ => Nat.mod_lt _ (by decide)⟩
    · exact refl_of Registers c
  | device base size pos => exact keeps_registerMemCtrl base size pos
  | memoryController base size pos => exact keeps_registerMemCtrl base size pos
  | setRamBaseAddr firstAddr => exact Keeps.modify fun _ => ⟨rfl, id, id⟩
  | setRamLastAddr lastAddr => exact Keeps.modify fun _ => ⟨rfl, id, id⟩

/-- A call that registers a memory controller leaves a registered component. -/
theorem registered_of_memoryController {base size : ℕ} {pos : MeshPos} {c c' : NocConfig}
    (h : register (.memoryController base size pos) c = .ok ⟨⟩ c') : c'.addressIDs ≠ [] := by
  have hrun : wp (registerMemCtrl base size pos) (fun _ c' => c'.addressIDs ≠ []) (fun _ _ => True) c := by
    apply wp.step
    rw [wp_get]
    by_cases hnull : pos.xId = maxIdx ∨ pos.yId = maxIdx
    · exact wp.ite_pos hnull trivial
    · apply wp.ite_neg hnull
      by_cases hout : c.mX < pos.xId ∨ c.mY < pos.yId
      · exact wp.ite_pos hout trivial
      · exact wp.ite_neg hout (List.append_ne_nil_of_right_ne_nil _ (List.cons_ne_nil _ _))
  exact hrun.of_ok h

/-- After calls that registered a memory controller some component is registered. -/
theorem registered_of_forM {calls : List Registration} {base size : ℕ} {pos : MeshPos} {c c' : NocConfig}
    (hmem : .memoryController base size pos ∈ calls) (h : calls.forM register c = .ok ⟨⟩ c') :
    c'.addressIDs ≠ [] := by
  induction calls generalizing c with
  | nil => cases hmem
  | cons call calls ih =>
    obtain ⟨c₁, hfirst, hrest⟩ := forM_cons_ok h
    rcases List.mem_cons.1 hmem with heq | hmem
    · rw [← heq] at hfirst
      have hkept : Keeps Registers (calls.forM register) := Keeps.forM fun call _ => keeps_register call
      exact ((hkept c₁).of_ok hrest).registered (registered_of_memoryController hfirst)
    · exact ih hmem hrest

/-- A call that returns adds its entry. -/
theorem addressIDs_register {call : Registration} {c c' : NocConfig} (h : register call c = .ok ⟨⟩ c') :
    c'.addressIDs = c.addressIDs ++ call.entry.toList := by
  have hadd (base size : ℕ) (pos : MeshPos) :
      wp (registerMemCtrl base size pos) (fun _ c' => c'.addressIDs = c.addressIDs ++ [.mk base size pos])
        (fun _ _ => True) c := by
    apply wp.step
    rw [wp_get]
    by_cases hnull : pos.xId = maxIdx ∨ pos.yId = maxIdx
    · exact wp.ite_pos hnull trivial
    · apply wp.ite_neg hnull
      by_cases hout : c.mX < pos.xId ∨ c.mY < pos.yId
      · exact wp.ite_pos hout trivial
      · exact wp.ite_neg hout rfl
  cases call with
  | setFirstMemoryController =>
    cases h
    beta_reduce
    split
    · exact (List.append_nil _).symm
    · exact (List.append_nil _).symm
  | device base size pos => exact (hadd base size pos).of_ok h
  | memoryController base size pos => exact (hadd base size pos).of_ok h
  | setRamBaseAddr firstAddr =>
    cases h
    exact (List.append_nil _).symm
  | setRamLastAddr lastAddr =>
    cases h
    exact (List.append_nil _).symm

/-- The entries of `mAddressIDs` are those of the calls that register, in their order. -/
theorem addressIDs_forM {calls : List Registration} {c c' : NocConfig} (h : calls.forM register c = .ok ⟨⟩ c') :
    c'.addressIDs = c.addressIDs ++ calls.filterMap Registration.entry := by
  induction calls generalizing c with
  | nil =>
    cases h
    exact (List.append_nil _).symm
  | cons call calls ih =>
    obtain ⟨c₁, hfirst, hrest⟩ := forM_cons_ok h
    rw [ih hrest, addressIDs_register hfirst, List.append_assoc, List.filterMap_cons]
    cases hentry : call.entry with
    | none => rfl
    | some entry => rfl

/-- Without components at the start, the calls that register are as many as the entries of `mAddressIDs`. -/
theorem length_addressIDs_forM {calls : List Registration} {c c' : NocConfig} (hnone : c.addressIDs = [])
    (h : calls.forM register c = .ok ⟨⟩ c') : c'.addressIDs.length = (registered calls).length := by
  rw [addressIDs_forM h, hnone, List.nil_append, List.length_filterMap_eq_countP, registered,
    List.countP_eq_length_filter]

/-- After any sequence of calls that registered a memory controller, both models select the same memory
controller for every address of the RAM exactly when the first memory controller has index 0 and the components
whose number times the interleave length stays within the RAM are memory controllers. -/
theorem selectsController_register_iff {c₀ c : NocConfig} {calls : List Registration} {base size : ℕ}
    {pos : MeshPos} (hnone : c₀.addressIDs = []) (hstart : c₀.indexFirstMemoryController = maxIdx)
    (hinterleave : c₀.memoryInterleaveLength ≠ 0) (hmem : .memoryController base size pos ∈ calls)
    (h : calls.forM register c₀ = .ok ⟨⟩ c) (hlast : c.ramLastAddr < countSize) :
    (∀ addr, c.ramBaseAddr ≤ addr → addr < c.ramLastAddr → SelectsController c calls addr) ↔
      (c.ramBaseAddr < c.ramLastAddr → c.indexFirstMemoryController = 0 ∧
        ∀ i < (registered calls).length, i * c.memoryInterleaveLength < c.ramLastAddr - c.ramBaseAddr →
          ControllerAt calls i) := by
  rw [← length_addressIDs_forM hnone h]
  have hkept : Keeps Registers (calls.forM register) := Keeps.forM fun call _ => keeps_register call
  have hregisters : Registers c₀ c := (hkept c₀).of_ok h
  have hinterleave' : c.memoryInterleaveLength ≠ 0 := by
    rw [hregisters.interleave]
    exact hinterleave
  have hregistered := registered_of_forM hmem h
  have hindex : c.indexFirstMemoryController < idxSize := by
    apply hregisters.index
    rw [hstart]
    decide
  have haddr (addr : ℕ) (hbase : c.ramBaseAddr ≤ addr) (hend : addr < c.ramLastAddr) :
      SelectsController c calls addr ↔ c.indexFirstMemoryController = 0 ∧
        ControllerAt calls ((addr - c.ramBaseAddr) / c.memoryInterleaveLength % c.addressIDs.length) :=
    selectsController_iff hinterleave' hregistered hindex ⟨hbase, hend⟩ (hend.trans hlast)
  constructor
  · intro hall hram
    refine ⟨((haddr _ le_rfl hram).1 (hall _ le_rfl hram)).1, (forall_stride_iff hinterleave' hregistered).1 ?_⟩
    exact fun addr hbase hend => ((haddr addr hbase hend).1 (hall addr hbase hend)).2
  · intro hcond addr hbase hend
    obtain ⟨hzero, hcontrollers⟩ := hcond (hbase.trans_lt hend)
    exact (haddr addr hbase hend).2
      ⟨hzero, (forall_stride_iff hinterleave' hregistered).2 hcontrollers addr hbase hend⟩

/-- A mesh of two by two routers with memory interleaved every 4 KiB. -/
def interleavedMesh : NocConfig := { bareMesh 2 2 with memoryInterleaveLength := 4096 }

/-- Two memory controllers of 4 KiB registered before a device. -/
def controllersFirst : List Registration :=
  finalize maxIdx 0 0 4096 ⟨0, 0⟩ ++ finalize 0 4096 4096 4096 ⟨1, 0⟩ ++ [.device 8192 16 ⟨1, 1⟩]

/-- One memory controller, with the device registered before it. -/
def deviceFirst : List Registration := [.device 8192 16 ⟨1, 1⟩] ++ finalize maxIdx 0 0 4096 ⟨0, 0⟩

/-- Memory controllers that were registered first are selected for every address of the RAM, which is not empty. -/
theorem selectsController_controllersFirst :
    ((endState (controllersFirst.forM register interleavedMesh)).ramBaseAddr,
        (endState (controllersFirst.forM register interleavedMesh)).ramLastAddr) = (0, 8192) ∧
      ∀ addr, (endState (controllersFirst.forM register interleavedMesh)).ramBaseAddr ≤ addr →
        addr < (endState (controllersFirst.forM register interleavedMesh)).ramLastAddr →
          SelectsController (endState (controllersFirst.forM register interleavedMesh)) controllersFirst addr := by
  have hmem : .memoryController 0 4096 ⟨0, 0⟩ ∈ controllersFirst := List.mem_cons_of_mem _ List.mem_cons_self
  have hrun : controllersFirst.forM register interleavedMesh =
      .ok ⟨⟩ (endState (controllersFirst.forM register interleavedMesh)) :=
    eq_ok_endState (by decide +kernel)
  refine ⟨by decide +kernel, (selectsController_register_iff rfl rfl (by decide) hmem hrun (by decide +kernel)).2 ?_⟩
  intro _
  decide +kernel

/-- With a device in front of the memory controller the two models select different components. -/
theorem not_selectsController_deviceFirst :
    ∃ c, deviceFirst.forM register interleavedMesh = .ok ⟨⟩ c ∧ c.ramBaseAddr ≤ 64 ∧ 64 < c.ramLastAddr ∧
      ¬ SelectsController c deviceFirst 64 := by
  refine ⟨_, eq_ok_endState (by decide +kernel), by decide +kernel, by decide +kernel, ?_⟩
  intro ⟨pos, index, hwithout, hwith, _⟩
  have hzero := getNocPosByAddress_eq_ok (by decide +kernel) (by decide +kernel) hwithout
  have hfirst := getNocPosByAddress_eq_ok (by decide +kernel) (by decide +kernel) hwith
  exact absurd (hzero.symm.trans hfirst) (by decide +kernel)

end Vpsim.Connect
