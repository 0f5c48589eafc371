import Vpsim.Connect.Mesh
import Vpsim.Lib.Run
import Mathlib.Data.List.Chain
import Mathlib.Data.List.Nodup

/-!
# Packets take the row first and the column next

The route of a packet starts at its source, goes along the row to the column of the destination and
along this column to the destination, one router at a time. Each router is passed once. So the
flits are inserted once into each buffer of the route, and each router on the way counts them once,
as long as the mesh has fewer routers than an `idx_t` can count.
-/

namespace Vpsim.Connect

open Vpsim.Lib

/-- The port of a router leads to the neighbour in its direction. -/
def OutputPort.Leads : OutputPort → MeshPos → MeshPos → Prop
  | .north, p, q => q.xId = p.xId ∧ p.yId = q.yId + 1
  | .south, p, q => q.xId = p.xId ∧ q.yId = p.yId + 1
  | .east, p, q => q.xId = p.xId + 1 ∧ q.yId = p.yId
  | .west, p, q => p.xId = q.xId + 1 ∧ q.yId = p.yId
  | .toLocal, _, _ => False

/-- The ports along a row. -/
def OutputPort.AlongRow (port : OutputPort) : Prop := port = .east ∨ port = .west

/-- The ports along a column. -/
def OutputPort.AlongColumn (port : OutputPort) : Prop := port = .north ∨ port = .south

/-- Each hop leads to the next one. -/
def Connected (path : Route) : Prop := path.IsChain fun hop next => hop.port.Leads hop.pos next.pos

/-- A route by the row of the source and the column of the destination. -/
structure IsXYRoute (src dst : MeshPos) (path : Route) : Prop where
  starts : path.head?.map Hop.pos = some src
  connected : Connected path
  rowFirst : ∃ row column, path = row ++ column ++ [⟨dst, .toLocal⟩] ∧
    (∀ hop ∈ row, hop.port.AlongRow) ∧ ∀ hop ∈ column, hop.port.AlongColumn
  length_eq : path.length = meshDistance src dst

/-- The routers between two positions, along the row of the first and the column of the second. -/
def OnWay (src dst p : MeshPos) : Prop :=
  (p.yId = src.yId ∧ min src.xId dst.xId ≤ p.xId ∧ p.xId ≤ max src.xId dst.xId) ∨
    (p.xId = dst.xId ∧ min src.yId dst.yId ≤ p.yId ∧ p.yId ≤ max src.yId dst.yId)

/-- The place after `k` steps from `i` towards `goal`. -/
def towards (i goal k : ℕ) : ℕ := if goal < i then i - k else i + k

/-- Number of steps from `i` to `goal`. -/
def steps (i goal : ℕ) : ℕ := (i - goal) + (goal - i)

/-- A loop that counts down appends the hops at the positions that it counts. -/
theorem loopHops_down (hop : ℕ → Hop) (rounds i : ℕ) :
    loopHops (fun i => i - 1) hop rounds i = ((List.range rounds).map fun k => hop (i - k), i - rounds) := by
  induction rounds generalizing i with
  | zero => rfl
  | succ rounds ih =>
    unfold loopHops
    rw [ih, List.range_succ_eq_map, List.map_cons, List.map_map]
    apply Prod.ext
    · apply congrArg (hop i :: ·)
      apply List.map_congr_left
      intro k _
      change hop (i - 1 - k) = hop (i - (k + 1))
      congr 1
      omega
    · change i - 1 - rounds = i - (rounds + 1)
      omega

/-- A loop that counts up appends the hops at the positions that it counts. -/
theorem loopHops_up (hop : ℕ → Hop) (rounds i : ℕ) :
    loopHops (fun i => i + 1) hop rounds i = ((List.range rounds).map fun k => hop (i + k), i + rounds) := by
  induction rounds generalizing i with
  | zero => rfl
  | succ rounds ih =>
    unfold loopHops
    rw [ih, List.range_succ_eq_map, List.map_cons, List.map_map]
    apply Prod.ext
    · apply congrArg (hop i :: ·)
      apply List.map_congr_left
      intro k _
      change hop (i + 1 + k) = hop (i + (k + 1))
      congr 1
      omega
    · change i + 1 + rounds = i + (rounds + 1)
      omega

/-- The port taken along a row. -/
def rowPort (src dst : MeshPos) : OutputPort := if dst.xId < src.xId then .west else .east

/-- The port taken along a column. -/
def columnPort (src dst : MeshPos) : OutputPort := if dst.yId < src.yId then .north else .south

/-- The hops along the row. -/
def rowPart (src dst : MeshPos) : Route :=
  (List.range (steps src.xId dst.xId)).map fun k =>
    ⟨⟨towards src.xId dst.xId k, src.yId⟩, rowPort src dst⟩

/-- The hops along the column. -/
def columnPart (src dst : MeshPos) : Route :=
  (List.range (steps src.yId dst.yId)).map fun k =>
    ⟨⟨dst.xId, towards src.yId dst.yId k⟩, columnPort src dst⟩

/-- The loops over `i` append the hops along the row, and leave `i` at the column of the destination
if one of them runs. -/
theorem rowHops_eq (src dst : MeshPos) :
    (rowHops src dst).1 = rowPart src dst ∧ (dst.xId ≠ src.xId → (rowHops src dst).2 = dst.xId) := by
  unfold rowHops rowPart rowPort
  by_cases hwest : dst.xId < src.xId
  · rw [if_pos hwest, loopHops_down, if_pos hwest]
    constructor
    · have hsteps : steps src.xId dst.xId = src.xId - dst.xId := by
        unfold steps
        omega
      rw [hsteps]
      apply List.map_congr_left
      intro k _
      unfold towards
      rw [if_pos hwest]
    · intro _
      change src.xId - (src.xId - dst.xId) = dst.xId
      omega
  · rw [if_neg hwest, if_neg hwest]
    have hsteps : steps src.xId dst.xId = dst.xId - src.xId := by
      unfold steps
      omega
    rw [hsteps]
    by_cases heast : src.xId < dst.xId
    · rw [if_pos heast, loopHops_up]
      constructor
      · apply List.map_congr_left
        intro k _
        unfold towards
        rw [if_neg hwest]
      · intro _
        change src.xId + (dst.xId - src.xId) = dst.xId
        omega
    · rw [if_neg heast]
      constructor
      · rw [Nat.sub_eq_zero_of_le (Nat.le_of_not_lt heast)]
        rfl
      · intro hne
        exact absurd (Nat.le_antisymm (Nat.le_of_not_lt heast) (Nat.le_of_not_lt hwest)) hne

/-- The loops over `j` append the hops along the column. -/
theorem columnHops_eq (src dst : MeshPos) : columnHops dst.xId src dst = columnPart src dst := by
  unfold columnHops columnPart columnPort
  by_cases hnorth : dst.yId < src.yId
  · rw [if_pos hnorth, loopHops_down, if_pos hnorth]
    have hsteps : steps src.yId dst.yId = src.yId - dst.yId := by
      unfold steps
      omega
    rw [hsteps]
    apply List.map_congr_left
    intro k _
    unfold towards
    rw [if_pos hnorth]
  · rw [if_neg hnorth, if_neg hnorth]
    have hsteps : steps src.yId dst.yId = dst.yId - src.yId := by
      unfold steps
      omega
    rw [hsteps]
    by_cases hsouth : src.yId < dst.yId
    · rw [if_pos hsouth, loopHops_up]
      apply List.map_congr_left
      intro k _
      unfold towards
      rw [if_neg hnorth]
    · rw [if_neg hsouth, Nat.sub_eq_zero_of_le (Nat.le_of_not_lt hsouth)]
      rfl

/-- The path is the row, the column and the local port of the destination. -/
theorem routeHops_eq (src dst : MeshPos) :
    routeHops src dst = rowPart src dst ++ columnPart src dst ++ [⟨dst, .toLocal⟩] := by
  unfold routeHops
  by_cases hsame : dst.xId = src.xId ∧ dst.yId = src.yId
  · rw [if_pos hsame]
    unfold rowPart columnPart steps
    rw [hsame.1, hsame.2, Nat.sub_self, Nat.sub_self]
    rfl
  · rw [if_neg hsame]
    have hcolumn : (if dst.xId = src.xId then src.xId else (rowHops src dst).2) = dst.xId := by
      by_cases hx : dst.xId = src.xId
      · rw [if_pos hx, hx]
      · rw [if_neg hx]
        exact (rowHops_eq src dst).2 hx
    change (rowHops src dst).1 ++ columnHops (if _ then _ else _) src dst ++ _ = _
    rw [hcolumn, (rowHops_eq src dst).1, columnHops_eq]

/-- Successive hops that lead on to one another are connected in front of a connected rest. -/
theorem connected_map_append {hop : ℕ → Hop} {n : ℕ} {rest : Route}
    (hstep : ∀ k < n, (hop k).port.Leads (hop k).pos (hop (k + 1)).pos)
    (hlast : ∀ next ∈ rest.head?, next.pos = (hop n).pos) (hrest : Connected rest) :
    Connected ((List.range n).map hop ++ rest) ∧
      ∀ next ∈ ((List.range n).map hop ++ rest).head?, next.pos = (hop 0).pos := by
  induction n generalizing hop with
  | zero => exact ⟨hrest, hlast⟩
  | succ n ih =>
    rw [List.range_succ_eq_map, List.map_cons, List.map_map, List.cons_append]
    obtain ⟨hchain, hhead⟩ := @ih (hop ∘ Nat.succ) (fun k hk => hstep (k + 1) (Nat.succ_lt_succ hk)) hlast
    constructor
    · apply List.isChain_cons.2
      refine ⟨fun next hnext => ?_, hchain⟩
      rw [hhead next hnext]
      exact hstep 0 (Nat.succ_pos n)
    · intro next hnext
      cases hnext
      rfl

/-- After all steps the goal is reached. -/
theorem towards_steps (i goal : ℕ) : towards i goal (steps i goal) = goal := by
  unfold towards steps
  split <;> omega

/-- No step has been made. -/
theorem towards_zero (i goal : ℕ) : towards i goal 0 = i := by
  unfold towards
  split <;> rfl

/-- The places passed on the way are those between the start and the goal, without the goal. -/
theorem exists_towards_iff (i goal x : ℕ) :
    (∃ k < steps i goal, towards i goal k = x) ↔ min i goal ≤ x ∧ x ≤ max i goal ∧ x ≠ goal := by
  unfold towards steps
  constructor
  · intro ⟨k, hk, hx⟩
    split at hx <;> omega
  · intro ⟨hmin, hmax, hne⟩
    by_cases hlt : goal < i
    · refine ⟨i - x, by omega, ?_⟩
      rw [if_pos hlt]
      omega
    · refine ⟨x - i, by omega, ?_⟩
      rw [if_neg hlt]
      omega

/-- A place is passed once. -/
theorem towards_inj {i goal k l : ℕ} (hk : k < steps i goal) (hl : l < steps i goal)
    (h : towards i goal k = towards i goal l) : k = l := by
  unfold towards steps at *
  split at h <;> omega

/-- Each hop along the row leads to the next place of the row. -/
theorem rowPort_leads {src dst : MeshPos} {k : ℕ} (hk : k < steps src.xId dst.xId) :
    (rowPort src dst).Leads ⟨towards src.xId dst.xId k, src.yId⟩
      ⟨towards src.xId dst.xId (k + 1), src.yId⟩ := by
  unfold steps at hk
  unfold rowPort towards
  by_cases hwest : dst.xId < src.xId
  · rw [if_pos hwest, if_pos hwest, if_pos hwest]
    refine ⟨?_, rfl⟩
    change src.xId - k = src.xId - (k + 1) + 1
    omega
  · rw [if_neg hwest, if_neg hwest, if_neg hwest]
    exact ⟨rfl, rfl⟩

/-- Each hop along the column leads to the next place of the column. -/
theorem columnPort_leads {src dst : MeshPos} {k : ℕ} (hk : k < steps src.yId dst.yId) :
    (columnPort src dst).Leads ⟨dst.xId, towards src.yId dst.yId k⟩
      ⟨dst.xId, towards src.yId dst.yId (k + 1)⟩ := by
  unfold steps at hk
  unfold columnPort towards
  by_cases hnorth : dst.yId < src.yId
  · rw [if_pos hnorth, if_pos hnorth, if_pos hnorth]
    refine ⟨rfl, ?_⟩
    change src.yId - k = src.yId - (k + 1) + 1
    omega
  · rw [if_neg hnorth, if_neg hnorth, if_neg hnorth]
    exact ⟨rfl, rfl⟩

/-- The column and the local port of the destination are connected and start in the row of the
source. -/
theorem connected_columnPart (src dst : MeshPos) :
    Connected (columnPart src dst ++ [Hop.mk dst .toLocal]) ∧
      ∀ next ∈ (columnPart src dst ++ [Hop.mk dst .toLocal]).head?, next.pos = ⟨dst.xId, src.yId⟩ := by
  have h := @connected_map_append
    (fun k => ⟨⟨dst.xId, towards src.yId dst.yId k⟩, columnPort src dst⟩) (steps src.yId dst.yId)
    [⟨dst, .toLocal⟩] (fun _ hk => columnPort_leads hk) ?_ (List.isChain_singleton _)
  · rw [towards_zero] at h
    exact h
  · intro next hnext
    cases hnext
    rw [towards_steps]

/-- The whole path is connected and starts at the source. -/
theorem connected_routeHops (src dst : MeshPos) :
    Connected (routeHops src dst) ∧ ∀ next ∈ (routeHops src dst).head?, next.pos = src := by
  obtain ⟨hcolumn, hhead⟩ := connected_columnPart src dst
  have h := @connected_map_append
    (fun k => ⟨⟨towards src.xId dst.xId k, src.yId⟩, rowPort src dst⟩) (steps src.xId dst.xId)
    (columnPart src dst ++ [⟨dst, .toLocal⟩]) (fun _ hk => rowPort_leads hk) ?_ hcolumn
  · rw [towards_zero, ← List.append_assoc] at h
    rw [routeHops_eq]
    exact h
  · intro next hnext
    rw [hhead next hnext, towards_steps]

/-- The path is a route by the row and the column. -/
theorem isXYRoute_routeHops (src dst : MeshPos) : IsXYRoute src dst (routeHops src dst) := by
  obtain ⟨hconnected, hhead⟩ := connected_routeHops src dst
  constructor
  · cases hpath : (routeHops src dst).head? with
    | none =>
      rw [List.head?_eq_none_iff, routeHops_eq] at hpath
      exact absurd hpath (List.append_ne_nil_of_right_ne_nil _ (List.cons_ne_nil _ _))
    | some first => exact congrArg some (hhead first hpath)
  · exact hconnected
  · refine ⟨rowPart src dst, columnPart src dst, routeHops_eq src dst, fun hop hhop => ?_, fun hop hhop => ?_⟩
    · obtain ⟨k, -, rfl⟩ := List.mem_map.1 hhop
      change (rowPort src dst).AlongRow
      unfold rowPort OutputPort.AlongRow
      split
      · exact .inr rfl
      · exact .inl rfl
    · obtain ⟨k, -, rfl⟩ := List.mem_map.1 hhop
      change (columnPort src dst).AlongColumn
      unfold columnPort OutputPort.AlongColumn
      split
      · exact .inl rfl
      · exact .inr rfl
  · rw [routeHops_eq]
    unfold rowPart columnPart meshDistance steps
    rw [List.length_append, List.length_append, List.length_map, List.length_range, List.length_map,
      List.length_range, List.length_singleton]
    omega

/-- The hops along the row are at the places passed before the column of the destination. -/
theorem mem_map_pos_rowPart {src dst p : MeshPos} :
    p ∈ (rowPart src dst).map Hop.pos ↔
      p.yId = src.yId ∧ ∃ k < steps src.xId dst.xId, towards src.xId dst.xId k = p.xId := by
  unfold rowPart
  rw [List.map_map, List.mem_map]
  constructor
  · intro ⟨k, hk, heq⟩
    rw [← heq]
    exact ⟨rfl, k, List.mem_range.1 hk, rfl⟩
  · intro ⟨hy, k, hk, hx⟩
    refine ⟨k, List.mem_range.2 hk, ?_⟩
    change MeshPos.mk _ _ = p
    rw [hx, ← hy]

/-- The hops along the column are at the places passed before the destination. -/
theorem mem_map_pos_columnPart {src dst p : MeshPos} :
    p ∈ (columnPart src dst).map Hop.pos ↔
      p.xId = dst.xId ∧ ∃ k < steps src.yId dst.yId, towards src.yId dst.yId k = p.yId := by
  unfold columnPart
  rw [List.map_map, List.mem_map]
  constructor
  · intro ⟨k, hk, heq⟩
    rw [← heq]
    exact ⟨rfl, k, List.mem_range.1 hk, rfl⟩
  · intro ⟨hx, k, hk, hy⟩
    refine ⟨k, List.mem_range.2 hk, ?_⟩
    change MeshPos.mk _ _ = p
    rw [hy, ← hx]

/-- The path passes the routers on the way. -/
theorem mem_map_pos_routeHops {src dst p : MeshPos} :
    p ∈ (routeHops src dst).map Hop.pos ↔ OnWay src dst p := by
  rw [routeHops_eq, List.map_append, List.map_append, List.mem_append, List.mem_append, List.map_singleton,
    List.mem_singleton]
  have hlast : p = dst ↔ p.xId = dst.xId ∧ p.yId = dst.yId := by
    constructor
    · intro heq
      rw [heq]
      exact ⟨rfl, rfl⟩
    · intro heq
      cases p
      cases dst
      simp_all
  rw [mem_map_pos_rowPart, mem_map_pos_columnPart, hlast, exists_towards_iff, exists_towards_iff]
  unfold OnWay
  omega

/-- No router is passed twice. -/
theorem nodup_map_pos_routeHops (src dst : MeshPos) : ((routeHops src dst).map Hop.pos).Nodup := by
  rw [routeHops_eq, List.append_assoc, List.map_append, List.map_append]
  have hrow : ((rowPart src dst).map Hop.pos).Nodup := by
    unfold rowPart
    rw [List.map_map]
    apply List.Nodup.map_on _ List.nodup_range
    intro k hk l hl heq
    exact towards_inj (List.mem_range.1 hk) (List.mem_range.1 hl) (congrArg MeshPos.xId heq)
  have hcolumn : ((columnPart src dst).map Hop.pos).Nodup := by
    unfold columnPart
    rw [List.map_map]
    apply List.Nodup.map_on _ List.nodup_range
    intro k hk l hl heq
    exact towards_inj (List.mem_range.1 hk) (List.mem_range.1 hl) (congrArg MeshPos.yId heq)
  apply hrow.append
  · apply hcolumn.append (List.nodup_singleton _)
    intro p hp hlast
    obtain ⟨-, hy⟩ := mem_map_pos_columnPart.1 hp
    rw [exists_towards_iff, List.mem_singleton.1 hlast] at hy
    exact hy.2.2 rfl
  · -- the column of the destination is not reached along the row
    intro p hp hrest
    obtain ⟨-, hx⟩ := mem_map_pos_rowPart.1 hp
    rw [exists_towards_iff] at hx
    apply hx.2.2
    rcases List.mem_append.1 hrest with hcol | hlast
    · exact (mem_map_pos_columnPart.1 hcol).1
    · rw [List.mem_singleton.1 hlast]

/-- Changing different entries of a table one after the other changes each of them once. -/
theorem foldl_update {ι κ ν : Type} [DecidableEq κ] (key : ι → κ) (f : ν → ν) {l : List ι}
    (hnodup : (l.map key).Nodup) (table : κ → ν) (k : κ) :
    l.foldl (fun table i => Function.update table (key i) (f (table (key i)))) table k =
      if k ∈ l.map key then f (table k) else table k := by
  induction l generalizing table with
  | nil => rfl
  | cons i l ih =>
    obtain ⟨hi, hl⟩ := List.nodup_cons.1 hnodup
    rw [List.foldl_cons, ih hl]
    by_cases hk : k = key i
    · have hmem : key i ∈ (i :: l).map key := List.mem_cons_self
      rw [hk, if_neg hi, if_pos hmem, Function.update_self]
    · have hmem : k ∈ (i :: l).map key ↔ k ∈ l.map key := by
        rw [List.map_cons, List.mem_cons]
        exact or_iff_right hk
      rw [Function.update_of_ne hk]
      simp only [hmem]

/-- The routers of a path have counters. -/
def InRange (c : NocConfig) (path : Route) : Prop := ∀ hop ∈ path, routerIndex c hop.pos < routers c

/-- The buffers after the updates along a path. -/
def updateBuffers (id nbFlits : ℕ) (path : Route) (noc : Hop → OutputBuffer) : Hop → OutputBuffer :=
  path.foldl (fun noc hop => Function.update noc hop (insertFlits id nbFlits (noc hop))) noc

/-- The counters after the updates along a path. -/
def updateCounts (c : NocConfig) (nbFlits : ℕ) (path : Route) (counts : ℕ → ℕ) : ℕ → ℕ :=
  path.foldl (fun counts hop => Function.update counts (routerIndex c hop.pos)
    ((counts (routerIndex c hop.pos) + nbFlits) % countSize)) counts

section Updates

variable {c : NocConfig} {src dst : MeshPos} {id nbFlits : ℕ} {s s' : NocState} {path : Route}

/-- Updating a path whose routers have counters returns, with the counters and the buffers of the path
updated. -/
theorem forM_updateRouter (h : InRange c path) :
    path.forM (updateRouter c id nbFlits) s = .ok ⟨⟩ { s with
      noc := updateBuffers id nbFlits path s.noc
      routerPacketsCount := updateCounts c nbFlits path s.routerPacketsCount } := by
  induction path generalizing s with
  | nil => rfl
  | cons hop path ih =>
    have hfirst : updateRouter c id nbFlits hop s = .ok ⟨⟩ { s with
        noc := Function.update s.noc hop (insertFlits id nbFlits (s.noc hop))
        routerPacketsCount := Function.update s.routerPacketsCount (routerIndex c hop.pos)
          ((s.routerPacketsCount (routerIndex c hop.pos) + nbFlits) % countSize) } := by
      unfold updateRouter
      rw [if_pos (h hop List.mem_cons_self)]
      rfl
    refine (bind_of_ok hfirst).trans ?_
    exact ih fun hop hhop => h hop (List.mem_cons_of_mem _ hhop)

/-- A router without a counter ends the call. -/
theorem inRange_of_forM (h : path.forM (updateRouter c id nbFlits) s = .ok ⟨⟩ s') : InRange c path := by
  induction path generalizing s with
  | nil => exact fun _ hhop => absurd hhop List.not_mem_nil
  | cons hop path ih =>
    obtain ⟨s₁, hfirst, hrest⟩ := forM_cons_ok h
    intro hop' hhop'
    rcases List.mem_cons.1 hhop' with heq | hhop'
    · rw [heq]
      apply Classical.byContradiction
      intro hout
      unfold updateRouter at hfirst
      rw [if_neg hout] at hfirst
      cases hfirst
    · exact ih hrest hop' hhop'

/-- A call that returns gives the path of the hops, whose routers all have counters, and updates exactly
these. -/
theorem computeRouteAndUpdateRouters_eq_ok
    (h : computeRouteAndUpdateRouters c src dst id nbFlits s = .ok path s') :
    path = routeHops src dst ∧ InRange c path ∧ s' = { s with
      noc := updateBuffers id nbFlits path s.noc
      routerPacketsCount := updateCounts c nbFlits path s.routerPacketsCount } := by
  cases hrun : (routeHops src dst).forM (updateRouter c id nbFlits) s with
  | error e t =>
    rw [computeRouteAndUpdateRouters, bind_of_error hrun] at h
    cases h
  | ok u t =>
    rw [computeRouteAndUpdateRouters, bind_of_ok hrun] at h
    cases h
    have hin := inRange_of_forM hrun
    rw [forM_updateRouter hin] at hrun
    cases hrun
    exact ⟨rfl, hin, rfl⟩

/-- A call returns when the routers of the path have counters. -/
theorem computeRouteAndUpdateRouters_of_inRange (h : InRange c (routeHops src dst)) :
    computeRouteAndUpdateRouters c src dst id nbFlits s = .ok (routeHops src dst) { s with
      noc := updateBuffers id nbFlits (routeHops src dst) s.noc
      routerPacketsCount := updateCounts c nbFlits (routeHops src dst) s.routerPacketsCount } :=
  bind_of_ok (forM_updateRouter h)

/-- The hops of a path are different. -/
theorem nodup_routeHops (src dst : MeshPos) : (routeHops src dst).Nodup :=
  List.Nodup.of_map _ (nodup_map_pos_routeHops src dst)

/-- The buffers of the path get the flits, and the others nothing. -/
theorem updateBuffers_routeHops (noc : Hop → OutputBuffer) (hop : Hop) :
    updateBuffers id nbFlits (routeHops src dst) noc hop =
      if hop ∈ routeHops src dst then insertFlits id nbFlits (noc hop) else noc hop := by
  have h := foldl_update (fun hop : Hop => hop) (insertFlits id nbFlits) (l := routeHops src dst)
    (by rw [List.map_id']; exact nodup_routeHops src dst) noc hop
  rw [List.map_id'] at h
  exact h

/-- Inserting the flits of a packet into a buffer adds exactly their ids. -/
theorem mem_keys_insertFlits {buffer : OutputBuffer} {k : ℕ} :
    k ∈ (insertFlits id nbFlits buffer).keys ↔ (∃ count < nbFlits, k = flitId id count) ∨ k ∈ buffer.keys := by
  unfold insertFlits
  induction nbFlits with
  | zero => simp
  | succ n ih =>
    rw [List.range_succ, List.foldl_append]
    change k ∈ (SortedMap.insert _ _ _).keys ↔ _
    rw [SortedMap.mem_keys_insert, ih]
    constructor
    · rintro (heq | ⟨count, hcount, heq⟩ | hmem)
      · exact .inl ⟨n, Nat.lt_succ_self n, heq⟩
      · exact .inl ⟨count, Nat.lt_succ_of_lt hcount, heq⟩
      · exact .inr hmem
    · rintro (⟨count, hcount, heq⟩ | hmem)
      · rcases Nat.lt_succ_iff_lt_or_eq.1 hcount with hlt | rfl
        · exact .inr (.inl ⟨count, hlt, heq⟩)
        · exact .inl heq
      · exact .inr (.inr hmem)

end Updates

/-- The index of a router in the counters, as its reader computes it. -/
def linearIndex (c : NocConfig) (p : MeshPos) : ℕ := p.xId + p.yId * c.mX

/-- A position in the mesh. -/
def InMesh (c : NocConfig) (p : MeshPos) : Prop := p.xId < c.mX ∧ p.yId < c.mY

/-- What a call does to the routers: the buffers named on the path get the ids of the flits and
the others stay, each router on the way has a counter that counts the flits, and the other counters
stay. -/
structure UpdatesRouters (c : NocConfig) (src dst : MeshPos) (id nbFlits : ℕ) (path : Route)
    (s s' : NocState) : Prop where
  inserted : ∀ hop ∈ path, ∀ k, k ∈ (s'.noc hop).keys ↔
    (∃ count < nbFlits, k = flitId id count) ∨ k ∈ (s.noc hop).keys
  untouched : ∀ hop ∉ path, s'.noc hop = s.noc hop
  counted : ∀ p, OnWay src dst p → ∃ n, getRouterPacketsCount c s p.xId p.yId = some n ∧
    getRouterPacketsCount c s' p.xId p.yId = some ((n + nbFlits) % countSize)
  uncounted : ∀ k, (∀ p, OnWay src dst p → k ≠ linearIndex c p) →
    s'.routerPacketsCount k = s.routerPacketsCount k

/-- Every router on the way has a counter. -/
def WayCounted (c : NocConfig) (src dst : MeshPos) : Prop :=
  ∀ p, OnWay src dst p → linearIndex c p < routers c

/-- Routers on the way are in the mesh. -/
theorem OnWay.inMesh {c : NocConfig} {src dst p : MeshPos} (h : OnWay src dst p) (hsrc : InMesh c src)
    (hdst : InMesh c dst) : InMesh c p := by
  unfold OnWay InMesh at *
  omega

/-- Different routers have different indices. -/
theorem linearIndex_inj {c : NocConfig} {p q : MeshPos} (hp : InMesh c p) (hq : InMesh c q)
    (h : linearIndex c p = linearIndex c q) : p = q := by
  unfold linearIndex at h
  have hx : p.xId = q.xId := by
    have := congrArg (· % c.mX) h
    simpa [Nat.add_mul_mod_self_right, Nat.mod_eq_of_lt hp.1, Nat.mod_eq_of_lt hq.1] using this
  have hpos : 0 < c.mX := Nat.zero_lt_of_lt hp.1
  have hy : p.yId = q.yId := by
    rw [hx] at h
    exact Nat.eq_of_mul_eq_mul_right hpos (Nat.add_left_cancel h)
  cases p
  cases q
  simp_all

/-- An index with a counter is computed without overflow. -/
theorem routerIndex_eq {c : NocConfig} {p : MeshPos} (h : linearIndex c p < routers c) :
    routerIndex c p = linearIndex c p :=
  Nat.mod_eq_of_lt (Nat.lt_trans h (Nat.mod_lt _ (by decide)))

/-- A call between two routers of the mesh returns a route by the row and the column and updates the
routers on the way, and only these, exactly when all of them have counters. -/
theorem computeRouteAndUpdateRouters_iff (c : NocConfig) (src dst : MeshPos) (id nbFlits : ℕ)
    (s : NocState) (hsrc : InMesh c src) (hdst : InMesh c dst) :
    (∃ path s', computeRouteAndUpdateRouters c src dst id nbFlits s = .ok path s' ∧
      IsXYRoute src dst path ∧ UpdatesRouters c src dst id nbFlits path s s') ↔ WayCounted c src dst := by
  constructor
  · intro ⟨path, s', _, _, hupdates⟩ p hp
    obtain ⟨n, hn, -⟩ := hupdates.counted p hp
    apply Classical.byContradiction
    intro hout
    unfold getRouterPacketsCount at hn
    rw [if_neg (show ¬ p.xId + p.yId * c.mX < routers c from hout)] at hn
    cases hn
  · intro hway
    have hpos : ∀ hop ∈ routeHops src dst, OnWay src dst hop.pos := fun hop hhop =>
      mem_map_pos_routeHops.1 (List.mem_map_of_mem hhop)
    have hin : InRange c (routeHops src dst) := by
      intro hop hhop
      rw [routerIndex_eq (hway _ (hpos hop hhop))]
      exact hway _ (hpos hop hhop)
    -- the counters are those of the routers on the way, each counted once
    have hindices : ∀ k, k ∈ (routeHops src dst).map (fun hop => routerIndex c hop.pos) ↔
        ∃ p, OnWay src dst p ∧ k = linearIndex c p := by
      intro k
      rw [List.mem_map]
      constructor
      · intro ⟨hop, hhop, heq⟩
        exact ⟨hop.pos, hpos hop hhop, by rw [← heq, routerIndex_eq (hway _ (hpos hop hhop))]⟩
      · intro ⟨p, hp, heq⟩
        obtain ⟨hop, hhop, rfl⟩ := List.mem_map.1 (mem_map_pos_routeHops.2 hp)
        exact ⟨hop, hhop, by rw [heq, routerIndex_eq (hway _ hp)]⟩
    have hnodup : ((routeHops src dst).map fun hop => routerIndex c hop.pos).Nodup := by
      have hmap : (routeHops src dst).map (fun hop => routerIndex c hop.pos) =
          ((routeHops src dst).map Hop.pos).map (routerIndex c) := by
        rw [List.map_map]
        rfl
      rw [hmap]
      apply List.Nodup.map_on _ (nodup_map_pos_routeHops src dst)
      intro p hp q hq heq
      have hp := mem_map_pos_routeHops.1 hp
      have hq := mem_map_pos_routeHops.1 hq
      rw [routerIndex_eq (hway p hp), routerIndex_eq (hway q hq)] at heq
      exact linearIndex_inj (hp.inMesh hsrc hdst) (hq.inMesh hsrc hdst) heq
    have hcounts := fun k => foldl_update (fun hop : Hop => routerIndex c hop.pos)
      (fun n => (n + nbFlits) % countSize) hnodup s.routerPacketsCount k
    refine ⟨_, _, computeRouteAndUpdateRouters_of_inRange hin, isXYRoute_routeHops src dst, ?_⟩
    constructor
    · intro hop hhop k
      change k ∈ (updateBuffers id nbFlits (routeHops src dst) s.noc hop).keys ↔ _
      rw [updateBuffers_routeHops, if_pos hhop, mem_keys_insertFlits]
    · intro hop hhop
      exact (updateBuffers_routeHops _ _).trans (if_neg hhop)
    · intro p hp
      have hlt : p.xId + p.yId * c.mX < routers c := hway p hp
      refine ⟨s.routerPacketsCount (linearIndex c p), if_pos hlt, (if_pos hlt).trans ?_⟩
      apply congrArg some
      exact (hcounts _).trans (if_pos ((hindices _).2 ⟨p, hp, rfl⟩))
    · intro k hk
      refine (hcounts k).trans (if_neg fun hmem => ?_)
      obtain ⟨p, hp, heq⟩ := (hindices k).1 hmem
      exact hk p hp heq

/-- From one corner of a mesh of three by two routers to the other, the path is an XY route and the
counters on it are updated. -/
theorem computeRouteAndUpdateRouters_corner :
    ∃ path s', computeRouteAndUpdateRouters (bareMesh 3 2) ⟨0, 0⟩ ⟨2, 1⟩ 1 2 .init = .ok path s' ∧
      IsXYRoute ⟨0, 0⟩ ⟨2, 1⟩ path ∧ UpdatesRouters (bareMesh 3 2) ⟨0, 0⟩ ⟨2, 1⟩ 1 2 path .init s' := by
  apply (computeRouteAndUpdateRouters_iff (bareMesh 3 2) ⟨0, 0⟩ ⟨2, 1⟩ 1 2 .init ⟨by decide, by decide⟩
    ⟨by decide, by decide⟩).2
  intro p hp
  have hin : InMesh (bareMesh 3 2) p := hp.inMesh ⟨by decide, by decide⟩ ⟨by decide, by decide⟩
  change p.xId + p.yId * 3 < 6
  change p.xId < 3 ∧ p.yId < 2 at hin
  omega

/-- In a mesh of 65536 by 65536 routers the number of routers overflows to 0, and a packet from a
router to itself finds no counter. -/
theorem not_updatesRouters_huge :
    InMesh (bareMesh 65536 65536) ⟨0, 0⟩ ∧
      ¬ ∃ path s', computeRouteAndUpdateRouters (bareMesh 65536 65536) ⟨0, 0⟩ ⟨0, 0⟩ 1 1 .init = .ok path s' ∧
        IsXYRoute ⟨0, 0⟩ ⟨0, 0⟩ path ∧
        UpdatesRouters (bareMesh 65536 65536) ⟨0, 0⟩ ⟨0, 0⟩ 1 1 path .init s' := by
  constructor
  · exact ⟨by decide, by decide⟩
  · intro ⟨path, s', hrun, _⟩
    obtain ⟨rfl, hin, -⟩ := computeRouteAndUpdateRouters_eq_ok hrun
    exact absurd (hin ⟨⟨0, 0⟩, .toLocal⟩ List.mem_cons_self) (by decide)

end Vpsim.Connect
