import Vpsim.Connect.MemoryControllers
import Vpsim.Connect.XYRouting

/-!
# Registered positions

Memory controllers, caches, devices and homes register with the position of a router. Each registration
compares the position with the size of the mesh, and lets a position one past the last row or column pass. The
positions come back from the lookups by address and by id, as the ends of routes.
-/

namespace Vpsim.Connect

open Vpsim.Lib

/-- The check of the coordinates and the registration. -/
def registerAt (pos : MeshPos) (add : NocConfig → NocConfig) : RegisterM PUnit := do
  let c ← get
  if c.mX < pos.xId ∨ c.mY < pos.yId then throw .incorrectCoordinates else modify add

/-- `register_cpu_ctrl`. -/
def registerCpuCtrl (id : ℕ) (pos : MeshPos) : RegisterM PUnit := do
  let c ← get
  if c.isCoherent ∧ id = maxIdx then throw .assertion
  else registerAt pos fun c => { c with cpuIDs := c.cpuIDs ++ [(id, pos)] }

/-- `register_device_ctrl`. -/
def registerDeviceCtrl (id : ℕ) (pos : MeshPos) : RegisterM PUnit := do
  let c ← get
  if c.isCoherent ∧ id = maxIdx then throw .assertion
  else registerAt pos fun c => { c with deviceIDs := c.deviceIDs ++ [(id, pos)] }

/-- `register_home_ctrl`. -/
def registerHomeCtrl (base size : ℕ) (pos : MeshPos) : RegisterM PUnit := do
  if pos.xId = maxIdx ∨ pos.yId = maxIdx then throw .assertion
  else registerAt pos fun c => { c with homeIDs := c.homeIDs ++ [AddressRange.mk base size pos] }

/-- A registration at a router. -/
inductive ControllerCall
  | memCtrl (base size : ℕ) (pos : MeshPos)
  | cpuCtrl (id : ℕ) (pos : MeshPos)
  | deviceCtrl (id : ℕ) (pos : MeshPos)
  | homeCtrl (base size : ℕ) (pos : MeshPos)

/-- One registration. -/
def registerController : ControllerCall → RegisterM PUnit
  | .memCtrl base size pos => registerMemCtrl base size pos
  | .cpuCtrl id pos => registerCpuCtrl id pos
  | .deviceCtrl id pos => registerDeviceCtrl id pos
  | .homeCtrl base size pos => registerHomeCtrl base size pos

/-- The interconnect before anything is registered. -/
def NocConfig.unregistered (c : NocConfig) : NocConfig :=
  { c with addressIDs := [], cpuIDs := [], deviceIDs := [], homeIDs := [] }

/-- The positions that the lookups return for the sources and the destinations of packets. -/
inductive Uses (c : NocConfig) : MeshPos → Prop
  | memory {addr index : ℕ} {pos : MeshPos} (h : controllerWithoutContention c addr = .ok (pos, index)) : Uses c pos
  | contended {addr index : ℕ} {pos : MeshPos} (h : controllerWithContention c addr = .ok (pos, index)) : Uses c pos
  | cpu {id : ℕ} {pos : MeshPos} (h : getNocPosById c id = .ok pos) : Uses c pos
  | device {id : ℕ} {pos : MeshPos} (h : getDeviceNocPosById c id = .ok pos) : Uses c pos
  | home {addr : ℕ} {pos : MeshPos} (h : getHomePosByAddress c addr = .ok pos) : Uses c pos

/-- Every position that is used is a router of the mesh with a counter, and different positions use different
counters. -/
def UsesRouters (c : NocConfig) : Prop :=
  (∀ pos, Uses c pos → InMesh c pos ∧ linearIndex c pos < routers c) ∧
    ∀ pos pos', Uses c pos → Uses c pos' → routerIndex c pos = routerIndex c pos' → pos = pos'

/-- No position that is used is one past the last column or row, and if the number of routers does not fit in
`idx_t` the positions come, row by row, among as many routers as are left of it. -/
def UsesInner (c : NocConfig) : Prop :=
  ∀ pos, Uses c pos → pos.xId ≠ c.mX ∧ pos.yId ≠ c.mY ∧
    (idxSize ≤ c.mX * c.mY → linearIndex c pos < c.mX * c.mY % idxSize)

/-! ## What registration accepts -/

/-- All registered positions are at most one past the last column and row. -/
structure Bounded (mX mY : ℕ) (c : NocConfig) : Prop where
  width : c.mX = mX
  height : c.mY = mY
  addressIDs : ∀ mapping ∈ c.addressIDs, mapping.pos.xId ≤ mX ∧ mapping.pos.yId ≤ mY
  cpuIDs : ∀ mapping ∈ c.cpuIDs, mapping.2.xId ≤ mX ∧ mapping.2.yId ≤ mY
  deviceIDs : ∀ mapping ∈ c.deviceIDs, mapping.2.xId ≤ mX ∧ mapping.2.yId ≤ mY
  homeIDs : ∀ mapping ∈ c.homeIDs, mapping.pos.xId ≤ mX ∧ mapping.pos.yId ≤ mY

variable {mX mY : ℕ} {c : NocConfig}

/-- A property of all elements of a list and of one more holds of the longer list. -/
theorem forall_mem_concat {α : Type} {P : α → Prop} {l : List α} {a : α} (h : ∀ b ∈ l, P b) (ha : P a) :
    ∀ b ∈ l ++ [a], P b := by
  intro b hb
  rcases List.mem_append.1 hb with hb | hb
  · exact h b hb
  · rw [List.mem_singleton.1 hb]
    exact ha

/-- A registration that is made has a position in bounds. -/
theorem wp_registerAt {pos : MeshPos} {add : NocConfig → NocConfig} (h : Bounded mX mY c)
    (hadd : pos.xId ≤ mX ∧ pos.yId ≤ mY → Bounded mX mY (add c)) :
    wp (registerAt pos add) (fun _ => Bounded mX mY) (fun _ => Bounded mX mY) c := by
  unfold registerAt
  apply wp.step
  rw [wp_get, h.width, h.height]
  by_cases hout : mX < pos.xId ∨ mY < pos.yId
  · exact wp.ite_pos hout h
  · apply wp.ite_neg hout
    rw [wp_modify]
    exact hadd ⟨Nat.le_of_not_lt fun hx => hout (.inl hx), Nat.le_of_not_lt fun hy => hout (.inr hy)⟩

/-- Each registration keeps the positions in bounds. -/
theorem wp_registerController (call : ControllerCall) (h : Bounded mX mY c) :
    wp (registerController call) (fun _ => Bounded mX mY) (fun _ => Bounded mX mY) c := by
  cases call with
  | memCtrl base size pos =>
    apply wp.step
    rw [wp_get]
    by_cases hnull : pos.xId = maxIdx ∨ pos.yId = maxIdx
    · exact wp.ite_pos hnull h
    · apply wp.ite_neg hnull
      exact wp_registerAt h fun hpos => { h with addressIDs := forall_mem_concat h.addressIDs hpos }
  | cpuCtrl id pos =>
    apply wp.step
    rw [wp_get]
    by_cases hnull : c.isCoherent ∧ id = maxIdx
    · exact wp.ite_pos hnull h
    · apply wp.ite_neg hnull
      exact wp_registerAt h fun hpos => { h with cpuIDs := forall_mem_concat h.cpuIDs hpos }
  | deviceCtrl id pos =>
    apply wp.step
    rw [wp_get]
    by_cases hnull : c.isCoherent ∧ id = maxIdx
    · exact wp.ite_pos hnull h
    · apply wp.ite_neg hnull
      exact wp_registerAt h fun hpos => { h with deviceIDs := forall_mem_concat h.deviceIDs hpos }
  | homeCtrl base size pos =>
    by_cases hnull : pos.xId = maxIdx ∨ pos.yId = maxIdx
    · exact wp.ite_pos hnull h
    · apply wp.ite_neg hnull
      exact wp_registerAt h fun hpos => { h with homeIDs := forall_mem_concat h.homeIDs hpos }

/-- After any registrations all positions are in bounds. -/
theorem bounded_of_forM {c₀ : NocConfig} {calls : List ControllerCall}
    (h : calls.forM registerController c₀.unregistered = .ok ⟨⟩ c) : Bounded c₀.mX c₀.mY c := by
  have hstart : Bounded c₀.mX c₀.mY c₀.unregistered := ⟨rfl, rfl, nofun, nofun, nofun, nofun⟩
  have hrun : wp (calls.forM registerController) (fun _ => Bounded c₀.mX c₀.mY) (fun _ => Bounded c₀.mX c₀.mY)
      c₀.unregistered :=
    wp_forM_mem (fun _ call _ hs => wp_registerController call hs) hstart
  exact hrun.of_ok h

/-! ## What the lookups return -/

/-- A range that is found was registered. -/
theorem mem_of_findRange {addr : ℕ} {ranges : List AddressRange} {index : ℕ} {found : MeshPos × ℕ}
    (h : findRange addr ranges index = some found) : ∃ mapping ∈ ranges, mapping.pos = found.1 := by
  induction ranges generalizing index with
  | nil => cases h
  | cons mapping rest ih =>
    unfold findRange at h
    by_cases hin : mapping.base ≤ addr ∧ addr < (mapping.size + mapping.base) % countSize
    · rw [if_pos hin] at h
      cases h
      exact ⟨mapping, List.mem_cons_self, rfl⟩
    · rw [if_neg hin] at h
      obtain ⟨mapping', hmem, hpos⟩ := ih h
      exact ⟨mapping', List.mem_cons_of_mem _ hmem, hpos⟩

/-- A position that is found by an id was registered. -/
theorem mem_of_findId {id : ℕ} {ids : List (ℕ × MeshPos)} {pos : MeshPos} (h : findId id ids = some pos) :
    ∃ mapping ∈ ids, mapping.2 = pos := by
  obtain ⟨mapping, hfind, hpos⟩ := Option.map_eq_some_iff.1 h
  exact ⟨mapping, List.mem_of_find?_eq_some hfind, hpos⟩

/-- A memory controller that is found by an address was registered. -/
theorem mem_of_getNocPosByAddress {addr index : ℕ} {found : MeshPos × ℕ}
    (h : getNocPosByAddress c addr index = .ok found) : ∃ mapping ∈ c.addressIDs, mapping.pos = found.1 := by
  have hwithout {found : MeshPos × ℕ} (h : getNocPosByAddressWithoutInterleave c addr = .ok found) :
      ∃ mapping ∈ c.addressIDs, mapping.pos = found.1 := by
    unfold getNocPosByAddressWithoutInterleave at h
    cases hfound : findRange addr c.addressIDs 0 with
    | none =>
      rw [hfound] at h
      cases h
    | some found' =>
      rw [hfound] at h
      cases h
      exact mem_of_findRange hfound
  unfold getNocPosByAddress at h
  by_cases hinterleave : c.memoryInterleaveLength = 0
  · rw [if_pos hinterleave] at h
    exact hwithout h
  · rw [if_neg hinterleave] at h
    unfold getNocPosByAddressWithInterleave at h
    by_cases hram : c.ramBaseAddr ≤ addr ∧ addr < c.ramLastAddr
    · rw [if_pos hram] at h
      cases hentry : c.addressIDs[interleavedIndex c addr index]? with
      | none =>
        rw [hentry] at h
        cases h
      | some mapping =>
        rw [hentry] at h
        cases h
        exact ⟨mapping, List.mem_of_getElem? hentry, rfl⟩
    · rw [if_neg hram] at h
      exact hwithout h

/-- A cache that is found by its id was registered. -/
theorem mem_of_getNocPosById {id : ℕ} {pos : MeshPos} (h : getNocPosById c id = .ok pos) :
    ∃ mapping ∈ c.cpuIDs, mapping.2 = pos := by
  unfold getNocPosById at h
  by_cases hnull : id = maxIdx
  · rw [if_pos hnull] at h
    cases h
  · rw [if_neg hnull] at h
    cases hfound : findId id c.cpuIDs with
    | none =>
      rw [hfound] at h
      cases h
    | some pos' =>
      rw [hfound] at h
      cases h
      exact mem_of_findId hfound

/-- A device that is found by its id was registered. -/
theorem mem_of_getDeviceNocPosById {id : ℕ} {pos : MeshPos} (h : getDeviceNocPosById c id = .ok pos) :
    ∃ mapping ∈ c.deviceIDs, mapping.2 = pos := by
  unfold getDeviceNocPosById at h
  by_cases hnull : id = maxIdx
  · rw [if_pos hnull] at h
    cases h
  · rw [if_neg hnull] at h
    cases hfound : findId id c.deviceIDs with
    | none =>
      rw [hfound] at h
      cases h
    | some pos' =>
      rw [hfound] at h
      cases h
      exact mem_of_findId hfound

/-- A home that is found by an address was registered. -/
theorem mem_of_getHomePosByAddress {addr : ℕ} {pos : MeshPos} (h : getHomePosByAddress c addr = .ok pos) :
    ∃ mapping ∈ c.homeIDs, mapping.pos = pos := by
  unfold getHomePosByAddress at h
  by_cases hinterleave : c.slcInterleaveLength = 0
  · rw [if_pos hinterleave] at h
    cases hfound : findRange addr c.homeIDs 0 with
    | none =>
      rw [hfound] at h
      cases h
    | some found =>
      rw [hfound] at h
      cases h
      exact mem_of_findRange hfound
  · rw [if_neg hinterleave] at h
    by_cases hram : c.ramBaseAddr ≤ addr ∧ addr < c.ramLastAddr
    · rw [if_pos hram] at h
      cases hentry : c.homeIDs[(addr - c.ramBaseAddr) / c.slcInterleaveLength % c.homeIDs.length]? with
      | none =>
        rw [hentry] at h
        cases h
      | some mapping =>
        rw [hentry] at h
        cases h
        exact ⟨mapping, List.mem_of_getElem? hentry, rfl⟩
    · rw [if_neg hram] at h
      cases h

/-- A position that is used is at most one past the last column and row. -/
theorem Uses.le {pos : MeshPos} (h : Uses c pos) (hc : Bounded mX mY c) : pos.xId ≤ c.mX ∧ pos.yId ≤ c.mY := by
  rw [hc.width, hc.height]
  cases h with
  | memory h =>
    obtain ⟨mapping, hmem, rfl⟩ := mem_of_getNocPosByAddress h
    exact hc.addressIDs mapping hmem
  | contended h =>
    obtain ⟨mapping, hmem, rfl⟩ := mem_of_getNocPosByAddress h
    exact hc.addressIDs mapping hmem
  | cpu h =>
    obtain ⟨mapping, hmem, rfl⟩ := mem_of_getNocPosById h
    exact hc.cpuIDs mapping hmem
  | device h =>
    obtain ⟨mapping, hmem, rfl⟩ := mem_of_getDeviceNocPosById h
    exact hc.deviceIDs mapping hmem
  | home h =>
    obtain ⟨mapping, hmem, rfl⟩ := mem_of_getHomePosByAddress h
    exact hc.homeIDs mapping hmem

/-- A position in the mesh has an index below the number of routers. -/
theorem linearIndex_lt {pos : MeshPos} (h : InMesh c pos) : linearIndex c pos < c.mX * c.mY := by
  unfold linearIndex
  calc pos.xId + pos.yId * c.mX < c.mX + pos.yId * c.mX := Nat.add_lt_add_right h.1 _
    _ = (pos.yId + 1) * c.mX := by rw [Nat.add_mul, Nat.one_mul, Nat.add_comm]
    _ ≤ c.mY * c.mX := Nat.mul_le_mul_right _ h.2
    _ = c.mX * c.mY := Nat.mul_comm _ _

/-! ## Every sequence of registrations -/

/-- After any registrations that are accepted, every position that is used is a router with a counter of its own,
exactly when none is one past the mesh and none is behind the counters of a mesh whose size overflows. -/
theorem usesRouters_iff {c₀ : NocConfig} {calls : List ControllerCall}
    (h : calls.forM registerController c₀.unregistered = .ok ⟨⟩ c) : UsesRouters c ↔ UsesInner c := by
  have hbounded := bounded_of_forM h
  constructor
  · intro ⟨hrouters, _⟩ pos hpos
    obtain ⟨hin, hcounter⟩ := hrouters pos hpos
    exact ⟨Nat.ne_of_lt hin.1, Nat.ne_of_lt hin.2, fun _ => hcounter⟩
  · intro hinner
    have hrouter (pos : MeshPos) (hpos : Uses c pos) : InMesh c pos ∧ linearIndex c pos < routers c := by
      obtain ⟨hx, hy, hoverflow⟩ := hinner pos hpos
      obtain ⟨hxle, hyle⟩ := hpos.le hbounded
      have hin : InMesh c pos := ⟨Nat.lt_of_le_of_ne hxle hx, Nat.lt_of_le_of_ne hyle hy⟩
      refine ⟨hin, ?_⟩
      unfold routers
      by_cases hsize : idxSize ≤ c.mX * c.mY
      · exact hoverflow hsize
      · rw [Nat.mod_eq_of_lt (Nat.lt_of_not_le hsize)]
        exact linearIndex_lt hin
    refine ⟨hrouter, fun pos pos' hpos hpos' hindex => ?_⟩
    obtain ⟨hin, hcounter⟩ := hrouter pos hpos
    obtain ⟨hin', hcounter'⟩ := hrouter pos' hpos'
    rw [routerIndex_eq hcounter, routerIndex_eq hcounter'] at hindex
    exact linearIndex_inj hin hin' hindex

/-- A mesh of two by two routers with a cache at the given position. -/
def meshWithCache (pos : MeshPos) : NocConfig := { bareMesh 2 2 with cpuIDs := [(0, pos)] }

/-- A cache at the last router, and a memory controller, a device and a home at the others. -/
def everyRouter : List ControllerCall :=
  [.memCtrl 0 16 ⟨0, 0⟩, .cpuCtrl 0 ⟨1, 1⟩, .deviceCtrl 1 ⟨1, 0⟩, .homeCtrl 0 16 ⟨0, 1⟩]

/-- The lookups return these four positions, each with a router of its own. -/
theorem usesRouters_lastRouter :
    UsesRouters (endState (everyRouter.forM registerController (bareMesh 2 2).unregistered)) := by
  have hrun : everyRouter.forM registerController (bareMesh 2 2).unregistered =
      .ok ⟨⟩ (endState (everyRouter.forM registerController (bareMesh 2 2).unregistered)) :=
    eq_ok_endState (by decide +kernel)
  apply (usesRouters_iff hrun).2
  intro pos hpos
  have hinner : pos ∈ [(⟨0, 0⟩ : MeshPos), ⟨1, 1⟩, ⟨1, 0⟩, ⟨0, 1⟩] := by
    cases hpos with
    | memory h | contended h =>
      obtain ⟨mapping, hmem, rfl⟩ := mem_of_getNocPosByAddress h
      rw [List.mem_singleton.1 hmem]
      decide
    | cpu h =>
      obtain ⟨mapping, hmem, rfl⟩ := mem_of_getNocPosById h
      rw [List.mem_singleton.1 hmem]
      decide
    | device h =>
      obtain ⟨mapping, hmem, rfl⟩ := mem_of_getDeviceNocPosById h
      rw [List.mem_singleton.1 hmem]
      decide
    | home h =>
      obtain ⟨mapping, hmem, rfl⟩ := mem_of_getHomePosByAddress h
      rw [List.mem_singleton.1 hmem]
      decide
  have hall : ∀ pos ∈ [(⟨0, 0⟩ : MeshPos), ⟨1, 1⟩, ⟨1, 0⟩, ⟨0, 1⟩],
      pos.xId ≠ 2 ∧ pos.yId ≠ 2 ∧ (idxSize ≤ 2 * 2 → linearIndex (bareMesh 2 2) pos < 2 * 2 % idxSize) := by
    decide
  exact hall pos hinner

/-- A cache one past the last column is accepted. -/
theorem not_usesRouters_pastColumn :
    ¬ ∀ (c₀ c : NocConfig) (calls : List ControllerCall),
      calls.forM registerController c₀.unregistered = .ok ⟨⟩ c → UsesRouters c := by
  intro h
  have hrouters := h (bareMesh 2 2) (meshWithCache ⟨2, 0⟩) [.cpuCtrl 0 ⟨2, 0⟩] rfl
  have hlookup : getNocPosById (meshWithCache ⟨2, 0⟩) 0 = .ok ⟨2, 0⟩ := rfl
  have hused : Uses (meshWithCache ⟨2, 0⟩) ⟨2, 0⟩ := .cpu hlookup
  exact absurd (hrouters.1 _ hused).1.1 (by decide)

end Vpsim.Connect
