import Vpsim.Connect.NocTopology
import Vpsim.Connect.XYRouting
import Mathlib.Data.List.Nodup

/-!
# The mesh of the network on chip

The constructor of `C_Mesh` adds the links of each router to the north, south, east and west, as far as there is a
neighbour, and `BuildRoutingXY` fills the tables with the port numbers 0, 2, 1 and 3 of these directions. `AddLink`
numbers the ports in the order in which the links are added, so the numbers of the tables are those of the links for
the port to the north only.
-/

namespace Vpsim.Connect

namespace NocMesh

/-- The positions of the mesh, in the order of the constructor's loops. -/
def cells (sizeX sizeY : ℕ) : List (ℕ × ℕ) :=
  (List.range sizeX).flatMap fun i => (List.range sizeY).map fun j => (i, j)

/-- `RouterId`. -/
def routerId (sizeY : ℕ) (p : ℕ × ℕ) : ℕ := (p.1 * sizeY + p.2) % portIds

/-- The links that the constructor adds for a position: `NorthID`, `SouthID`, `EastID`, `WestID`. -/
def cellLinks (sizeX sizeY : ℕ) (p : ℕ × ℕ) : List (ℕ × ℕ) :=
  let id := routerId sizeY p
  (if p.2 + 1 < sizeY then [(id, (id + 1) % portIds)] else []) ++
  (if 1 ≤ p.2 then [(id, (id + portIds - 1) % portIds)] else []) ++
  (if p.1 + 1 < sizeX then [(id, (id + sizeY) % portIds)] else []) ++
  (if 1 ≤ p.1 then [(id, (id + portIds - sizeY) % portIds)] else [])

/-- The constructor of `C_Mesh`. -/
def build (sizeX sizeY : ℕ) : NocBase :=
  let start := if sizeX = 1 ∧ sizeY = 1 then NocBase.empty.addRouter 0 else NocBase.empty
  (cells sizeX sizeY).foldl (fun n p => (cellLinks sizeX sizeY p).foldl NocBase.addLink n) start

/-- The `OutPort` of `BuildRoutingXY` at a position, for a target position that is another one. -/
def outPort (p q : ℕ × ℕ) : ℕ :=
  if q.1 < p.1 then 3 else if p.1 < q.1 then 1 else if q.2 < p.2 then 2 else 0

/-- The entries of `BuildRoutingXY`. -/
def routingCalls (sizeX sizeY : ℕ) : List NocBase.RoutingCall :=
  (cells sizeX sizeY).flatMap fun p =>
    ((cells sizeX sizeY).filter fun q => q ≠ p).map fun q => ⟨routerId sizeY p, routerId sizeY q, outPort p q⟩

/-- `BuildRoutingXY`. -/
def buildRoutingXY (sizeX sizeY : ℕ) (n : NocBase) : NocBase := n.addRoutings (routingCalls sizeX sizeY)

/-- The mesh with its tables. -/
def routed (sizeX sizeY : ℕ) : NocBase := buildRoutingXY sizeX sizeY (build sizeX sizeY)

/-- The positions after `p` on the way to `q`, along X and then along Y, one by one. -/
def xyPath (p q : ℕ × ℕ) : List (ℕ × ℕ) :=
  (List.range (steps p.1 q.1)).map (fun k => (towards p.1 q.1 (k + 1), p.2)) ++
  (List.range (steps p.2 q.2)).map (fun k => (q.1, towards p.2 q.2 (k + 1)))

/-- From every position to every other one the routers visited are those of the XY path. -/
def RoutesXY (step : NocBase → ℕ → ℕ → ℕ → Prop) (sizeX sizeY : ℕ) : Prop :=
  ∀ p ∈ cells sizeX sizeY, ∀ q ∈ cells sizeX sizeY, p ≠ q →
    Visits (step (routed sizeX sizeY) (routerId sizeY q)) (routerId sizeY q) (routerId sizeY p)
      ((xyPath p q).map (routerId sizeY))

/-- The routing goes along links that exist. -/
def RoutesAlongLinks : ℕ → ℕ → Prop := RoutesXY fun n target router next => n.Leads router target next

/-- The routing goes where `C_NoCNoContention` reads that it goes. -/
def RoutesAsRead : ℕ → ℕ → Prop := RoutesXY fun n target router next => next = n.nextRouter router target

variable {sizeX sizeY : ℕ} {p q : ℕ × ℕ}

/-- The path has as many hops as the positions are apart. -/
theorem xyPath_length (p q : ℕ × ℕ) : (xyPath p q).length = steps p.1 q.1 + steps p.2 q.2 := by
  simp [xyPath]

theorem mem_cells : p ∈ cells sizeX sizeY ↔ p.1 < sizeX ∧ p.2 < sizeY := by
  simp only [cells, List.mem_flatMap, List.mem_map, List.mem_range]
  constructor
  · rintro ⟨i, hi, j, hj, rfl⟩
    exact ⟨hi, hj⟩
  · rintro ⟨hi, hj⟩
    exact ⟨p.1, hi, p.2, hj, rfl⟩

theorem nodup_cells (sizeX sizeY : ℕ) : (cells sizeX sizeY).Nodup := by
  unfold cells
  rw [List.nodup_flatMap]
  refine ⟨fun i _ => List.nodup_range.map fun j j' h => congrArg Prod.snd h, ?_⟩
  refine List.nodup_range.imp fun {i i'} hne => ?_
  intro a ha ha'
  obtain ⟨j, -, rfl⟩ := List.mem_map.mp ha
  obtain ⟨j', -, heq⟩ := List.mem_map.mp ha'
  exact hne (congrArg Prod.fst heq).symm

/-- Positions that are not the same are a positive number of hops apart. -/
theorem xyPath_ne_nil (h : p ≠ q) : xyPath p q ≠ [] := by
  intro hnil
  have hlength := xyPath_length p q
  rw [hnil, List.length_nil] at hlength
  unfold steps at hlength
  exact h (Prod.ext (by omega) (by omega))

section Fits

variable (hfits : sizeX * sizeY ≤ portIds)

include hfits

/-- Router ids of a mesh that fits are not reduced. -/
theorem cell_lt (hp : p ∈ cells sizeX sizeY) : p.1 * sizeY + p.2 < portIds := by
  obtain ⟨hi, hj⟩ := mem_cells.mp hp
  have hrow : (p.1 + 1) * sizeY ≤ sizeX * sizeY := Nat.mul_le_mul_right _ hi
  rw [Nat.add_mul] at hrow
  omega

theorem routerId_eq (hp : p ∈ cells sizeX sizeY) : routerId sizeY p = p.1 * sizeY + p.2 :=
  Nat.mod_eq_of_lt (cell_lt hfits hp)

theorem routerId_inj (hp : p ∈ cells sizeX sizeY) (hq : q ∈ cells sizeX sizeY)
    (h : routerId sizeY p = routerId sizeY q) : p = q := by
  rw [routerId_eq hfits hp, routerId_eq hfits hq] at h
  have hpY := (mem_cells.mp hp).2
  have hqY := (mem_cells.mp hq).2
  have hrow : ∀ {i i' : ℕ}, i < i' → i * sizeY + sizeY ≤ i' * sizeY := by
    intro i i' hlt
    have hmul : (i + 1) * sizeY ≤ i' * sizeY := Nat.mul_le_mul_right _ hlt
    rwa [Nat.add_mul, Nat.one_mul] at hmul
  rcases Nat.lt_trichotomy p.1 q.1 with hlt | heq | hgt
  · have := hrow hlt
    omega
  · rw [heq] at h
    exact Prod.ext heq (Nat.add_left_cancel h)
  · have := hrow hgt
    omega

end Fits

/-- All links of a position leave its router. -/
theorem cellLinks_src {call : ℕ × ℕ} (h : call ∈ cellLinks sizeX sizeY p) : call.1 = routerId sizeY p := by
  unfold cellLinks at h
  simp only [List.mem_append, List.mem_ite_nil_right, List.mem_singleton] at h
  rcases h with ((⟨-, rfl⟩ | ⟨-, rfl⟩) | ⟨-, rfl⟩) | ⟨-, rfl⟩ <;> rfl

theorem build_linked (sizeX sizeY : ℕ) :
    NocBase.Linked ((cells sizeX sizeY).flatMap (cellLinks sizeX sizeY)) (build sizeX sizeY) := by
  have hstart : NocBase.Linked [] (if sizeX = 1 ∧ sizeY = 1 then NocBase.empty.addRouter 0 else NocBase.empty) := by
    split
    · exact NocBase.empty_linked.addRouter 0
    · exact NocBase.empty_linked
  unfold build
  dsimp only
  rw [← List.foldl_flatMap]
  exact hstart.foldl _

theorem cellLinks_length : (cellLinks sizeX sizeY p).length ≤ portIds := by
  have hfour : (cellLinks sizeX sizeY p).length ≤ 4 := by
    unfold cellLinks
    simp only [List.length_append]
    split_ifs <;> simp
  exact Nat.le_trans hfour (by decide)

/-- The constructor fills no table. -/
theorem build_tables (sizeX sizeY : ℕ) (key : ℕ × ℕ) : (build sizeX sizeY).routingTables key = none := by
  unfold build
  dsimp only
  rw [← List.foldl_flatMap, NocBase.addLinks_tables]
  split
  · rw [NocBase.addRouter_tables]
    rfl
  · rfl

theorem flatMap_of_unique {α β : Type} {l : List α} (hnodup : l.Nodup) {f : α → List β} {a : α} (ha : a ∈ l)
    (hother : ∀ b ∈ l, b ≠ a → f b = []) : l.flatMap f = f a := by
  induction l with
  | nil => cases ha
  | cons b l ih =>
    obtain ⟨hb, hnodup⟩ := List.nodup_cons.mp hnodup
    rw [List.flatMap_cons]
    by_cases hab : a = b
    · have hrest : l.flatMap f = [] := by
        rw [List.flatMap_eq_nil_iff]
        intro c hc
        refine hother c (List.mem_cons_of_mem b hc) ?_
        rintro rfl
        exact hb (hab ▸ hc)
      rw [hrest, List.append_nil, hab]
    · rw [hother b List.mem_cons_self (Ne.symm hab), List.nil_append]
      refine ih hnodup ((List.mem_cons.mp ha).resolve_left hab) fun c hc => ?_
      exact hother c (List.mem_cons_of_mem b hc)

section Fits

variable (hfits : sizeX * sizeY ≤ portIds)

include hfits

/-- The links out of a router are those of its position. -/
theorem outOf_build (hp : p ∈ cells sizeX sizeY) :
    NocBase.outOf ((cells sizeX sizeY).flatMap (cellLinks sizeX sizeY)) (routerId sizeY p) =
      (cellLinks sizeX sizeY p).map Prod.snd := by
  unfold NocBase.outOf
  rw [List.filter_flatMap, flatMap_of_unique (nodup_cells sizeX sizeY) hp]
  · rw [List.filter_eq_self.mpr]
    intro call hcall
    exact decide_eq_true (cellLinks_src hcall)
  · intro c hc hne
    rw [List.filter_eq_nil_iff]
    intro call hcall heq
    rw [decide_eq_true_eq, cellLinks_src hcall] at heq
    exact hne (routerId_inj hfits hc hp heq)

/-- A port of a router leads where the link of its position with that number leads. -/
theorem links_build (hp : p ∈ cells sizeX sizeY) (port : ℕ) :
    ((routed sizeX sizeY).links (routerId sizeY p, port)).map Prod.fst =
      ((cellLinks sizeX sizeY p).map Prod.snd)[port]? := by
  have hout := outOf_build hfits hp
  unfold routed buildRoutingXY
  rw [NocBase.addRoutings_links, (build_linked sizeX sizeY).links _ _ ?_, hout]
  rw [hout, List.length_map]
  exact cellLinks_length

/-- The entry for another position is the port that the routing gives to its direction. -/
theorem tables_build (hp : p ∈ cells sizeX sizeY) (hq : q ∈ cells sizeX sizeY) (hne : q ≠ p) :
    (routed sizeX sizeY).routingTables (routerId sizeY p, routerId sizeY q) = some (outPort p q) := by
  apply NocBase.addRoutings_tables (build_tables sizeX sizeY _)
  · refine ⟨⟨routerId sizeY p, routerId sizeY q, outPort p q⟩, ?_, rfl⟩
    exact List.mem_flatMap.mpr ⟨p, hp, List.mem_map.mpr ⟨q, List.mem_filter.mpr ⟨hq, by simpa using hne⟩, rfl⟩⟩
  · intro call hcall hkey
    obtain ⟨p', hp', hcall⟩ := List.mem_flatMap.mp hcall
    obtain ⟨q', hq', rfl⟩ := List.mem_map.mp hcall
    have hpp := routerId_inj hfits hp' hp (congrArg Prod.fst hkey)
    have hqq := routerId_inj hfits (List.mem_filter.mp hq').1 hq (congrArg Prod.snd hkey)
    rw [hpp, hqq]

/-- The router read as the next one is the one behind the link whose number is the port of the direction, and router 0
where there is no such link. -/
theorem nextRouter_eq (hp : p ∈ cells sizeX sizeY) (hq : q ∈ cells sizeX sizeY) (hne : q ≠ p) :
    (routed sizeX sizeY).nextRouter (routerId sizeY p) (routerId sizeY q) =
      ((cellLinks sizeX sizeY p).map Prod.snd)[outPort p q]?.getD 0 := by
  rw [← links_build hfits hp]
  unfold NocBase.nextRouter
  rw [tables_build hfits hp hq hne, Option.getD_some]
  cases (routed sizeX sizeY).links (routerId sizeY p, outPort p q) <;> rfl

/-- The port chosen at a position leads to the first position of the path that the routing reads as. -/
theorem RoutesAsRead.first (h : RoutesAsRead sizeX sizeY) (hp : p ∈ cells sizeX sizeY) (hq : q ∈ cells sizeX sizeY)
    (hne : q ≠ p) (r : ℕ × ℕ) (rest : List (ℕ × ℕ)) (hpath : xyPath p q = r :: rest) :
    ((cellLinks sizeX sizeY p).map Prod.snd)[outPort p q]?.getD 0 = routerId sizeY r := by
  have hvisits := h p hp q hq (Ne.symm hne)
  rw [hpath, List.map_cons] at hvisits
  rw [← nextRouter_eq hfits hp hq hne]
  exact hvisits.step_of_cons.2.symm

end Fits

theorem RoutesAlongLinks.asRead (h : RoutesAlongLinks sizeX sizeY) : RoutesAsRead sizeX sizeY := by
  intro p hp q hq hne
  refine Visits.mono ?_ (h p hp q hq hne)
  intro cur next hleads
  exact hleads.nextRouter.symm

/-- Two positions with one id are no hop apart in the tables. -/
theorem fits_of_routesAsRead (hy : 1 ≤ sizeY) (h : RoutesAsRead sizeX sizeY) : sizeX * sizeY ≤ portIds := by
  by_contra hmany
  have hpos : 0 < sizeX := by
    by_contra hzero
    rw [Nat.eq_zero_of_not_pos hzero, Nat.zero_mul] at hmany
    exact hmany (Nat.zero_le _)
  have hfirst : ((0, 0) : ℕ × ℕ) ∈ cells sizeX sizeY := mem_cells.mpr ⟨hpos, hy⟩
  have hagain : ((portIds / sizeY, portIds % sizeY) : ℕ × ℕ) ∈ cells sizeX sizeY :=
    mem_cells.mpr ⟨(Nat.div_lt_iff_lt_mul hy).mpr (Nat.not_le.mp hmany), Nat.mod_lt _ hy⟩
  have hne : ((0, 0) : ℕ × ℕ) ≠ (portIds / sizeY, portIds % sizeY) := by
    intro heq
    have hrow : 0 = portIds / sizeY := congrArg Prod.fst heq
    have hcolumn : 0 = portIds % sizeY := congrArg Prod.snd heq
    have hsum := Nat.div_add_mod portIds sizeY
    rw [← hrow, ← hcolumn] at hsum
    exact absurd hsum (by simp [portIds])
  have hid : routerId sizeY (portIds / sizeY, portIds % sizeY) = routerId sizeY (0, 0) := by
    unfold routerId
    dsimp only
    rw [Nat.mul_comm, Nat.div_add_mod, Nat.mod_self, Nat.zero_mul, Nat.zero_add, Nat.zero_mod]
  have hvisits := h _ hfirst _ hagain hne
  obtain ⟨r, rest, hpath⟩ := List.exists_cons_of_ne_nil (xyPath_ne_nil hne)
  rw [hpath, List.map_cons, hid] at hvisits
  exact hvisits.step_of_cons.1 rfl

/-- South of the second position of a column is no port 2. -/
theorem not_routesAsRead_column (hy : 3 ≤ sizeY) (hfits : 1 * sizeY ≤ portIds) : ¬ RoutesAsRead 1 sizeY := by
  intro h
  have hfirst := h.first hfits (p := (0, 2)) (q := (0, 0)) (mem_cells.mpr ⟨by decide, by dsimp only; omega⟩)
    (mem_cells.mpr ⟨by decide, by dsimp only; omega⟩) (by decide) (0, 1) [(0, 0)] rfl
  by_cases hnorth : 3 < sizeY
  · simp [cellLinks, outPort, hnorth, routerId, portIds] at hfirst
  · simp [cellLinks, outPort, hnorth, routerId, portIds] at hfirst

theorem not_routesAsRead_row (hx : 2 ≤ sizeX) (hfits : sizeX * 1 ≤ portIds) : ¬ RoutesAsRead sizeX 1 := by
  intro h
  have hfirst := h.first hfits (p := (0, 0)) (q := (1, 0)) (mem_cells.mpr ⟨by dsimp only; omega, by decide⟩)
    (mem_cells.mpr ⟨by dsimp only; omega, by decide⟩) (by decide) (1, 0) [] rfl
  have heast : 1 < sizeX := hx
  simp [cellLinks, outPort, heast, routerId, portIds] at hfirst

theorem not_routesAsRead_inner (hx : 2 ≤ sizeX) (hy : 2 ≤ sizeY) (hfits : sizeX * sizeY ≤ portIds) :
    ¬ RoutesAsRead sizeX sizeY := by
  intro h
  have hp : ((1, 1) : ℕ × ℕ) ∈ cells sizeX sizeY := mem_cells.mpr ⟨hx, hy⟩
  have hq : ((1, 0) : ℕ × ℕ) ∈ cells sizeX sizeY := mem_cells.mpr ⟨hx, Nat.zero_lt_of_lt hy⟩
  have hfirst := h.first hfits hp hq (by decide) (1, 0) [] rfl
  have hid : routerId sizeY (1, 1) = sizeY + 1 := by
    rw [routerId_eq hfits hp, Nat.one_mul]
  have hsouth : routerId sizeY (1, 0) = sizeY := by
    rw [routerId_eq hfits hq, Nat.one_mul, Nat.add_zero]
  have hrows : 2 * sizeY ≤ portIds := Nat.le_trans (Nat.mul_le_mul_right _ hx) hfits
  have hwest : (sizeY + 1 + portIds - sizeY) % portIds = 1 := by
    rw [show sizeY + 1 + portIds - sizeY = 1 + portIds by omega, Nat.add_mod_right]
    rfl
  have hport : outPort (1, 1) (1, 0) = 2 := rfl
  rw [hsouth, hport] at hfirst
  unfold cellLinks at hfirst
  dsimp only at hfirst
  rw [hid, hwest] at hfirst
  by_cases hnorth : 1 + 1 < sizeY
  · by_cases heast : 1 + 1 < sizeX
    · -- the third port leads east
      have hthree : 3 * sizeY ≤ portIds := Nat.le_trans (Nat.mul_le_mul_right _ heast) hfits
      have heastId : (sizeY + 1 + sizeY) % portIds = sizeY + 1 + sizeY := Nat.mod_eq_of_lt (by omega)
      simp [hnorth, heast, heastId] at hfirst
    · simp [hnorth, heast] at hfirst
      omega
  · by_cases heast : 1 + 1 < sizeX
    · simp [hnorth, heast] at hfirst
      omega
    · simp [hnorth, heast] at hfirst
      omega

/-- Two routers on top of each other: the missing port 2 of the upper one reads as a link to router 0, the lower one. -/
theorem routesAsRead_two : RoutesAsRead 1 2 := by
  intro p hp q hq hne
  have hcells : cells 1 2 = [(0, 0), (0, 1)] := by decide
  rw [hcells] at hp hq
  simp only [List.mem_cons, List.not_mem_nil, or_false] at hp hq
  rcases hp with rfl | rfl
  · rcases hq with rfl | rfl
    · exact absurd rfl hne
    · exact .hop (by decide) (by decide +kernel) .here
  · rcases hq with rfl | rfl
    · exact .hop (by decide) (by decide +kernel) .here
    · exact absurd rfl hne

theorem not_routesAlongLinks_two : ¬ RoutesAlongLinks 1 2 := by
  intro h
  have hvisits := h (0, 1) (by decide) (0, 0) (by decide) (by decide)
  obtain ⟨outPort, inPort, htable, hlink⟩ := hvisits.step_of_cons.2
  have hentry : (routed 1 2).routingTables (1, 0) = some 2 := by decide +kernel
  have hmissing : (routed 1 2).links (1, 2) = none := by decide +kernel
  have hport : some outPort = some 2 := htable.symm.trans hentry
  rw [Option.some.inj hport] at hlink
  exact absurd (hlink.symm.trans hmissing) nofun

theorem routesAlongLinks_one : RoutesAlongLinks 1 1 := by
  intro p hp q hq hne
  have hcells : cells 1 1 = [(0, 0)] := by decide
  rw [hcells] at hp hq
  exact absurd ((List.mem_singleton.mp hp).trans (List.mem_singleton.mp hq).symm) hne

theorem routesAsRead_iff (hx : 1 ≤ sizeX) (hy : 1 ≤ sizeY) : RoutesAsRead sizeX sizeY ↔ sizeX = 1 ∧ sizeY ≤ 2 := by
  constructor
  · intro h
    have hfits := fits_of_routesAsRead hy h
    by_contra hother
    rcases Nat.lt_or_ge 1 sizeX with hwide | hnarrow
    · rcases Nat.lt_or_ge 1 sizeY with htall | hflat
      · exact not_routesAsRead_inner hwide htall hfits h
      · obtain rfl : sizeY = 1 := by omega
        exact not_routesAsRead_row hwide hfits h
    · obtain rfl : sizeX = 1 := by omega
      exact not_routesAsRead_column (by omega) hfits h
  · rintro ⟨rfl, hy2⟩
    rcases Nat.lt_or_ge 1 sizeY with htwo | hone
    · obtain rfl : sizeY = 2 := by omega
      exact routesAsRead_two
    · obtain rfl : sizeY = 1 := by omega
      exact routesAlongLinks_one.asRead

/-- The XY tables match the links in a mesh of one router only; read with zeros for what is missing they also lead
between two routers on top of each other. -/
theorem routesXY_iff (hx : 1 ≤ sizeX) (hy : 1 ≤ sizeY) :
    (RoutesAlongLinks sizeX sizeY ↔ sizeX = 1 ∧ sizeY = 1) ∧
      (RoutesAsRead sizeX sizeY ↔ sizeX = 1 ∧ sizeY ≤ 2) := by
  refine ⟨⟨fun h => ?_, ?_⟩, routesAsRead_iff hx hy⟩
  · obtain ⟨rfl, hy2⟩ := (routesAsRead_iff hx hy).mp h.asRead
    refine ⟨rfl, ?_⟩
    by_contra htwo
    obtain rfl : sizeY = 2 := by omega
    exact not_routesAlongLinks_two h
  · rintro ⟨rfl, rfl⟩
    exact routesAlongLinks_one

theorem routesXY_iff_three :
    (RoutesAlongLinks 3 3 ↔ 3 = 1 ∧ 3 = 1) ∧ (RoutesAsRead 3 3 ↔ 3 = 1 ∧ 3 ≤ 2) :=
  routesXY_iff (by decide) (by decide)

/-- In the mesh of three by three the router in the middle sends to the south what it has to, through its port to the
east. -/
theorem not_routesXY :
    (routed 3 3).routingTables (4, 3) = some 2 ∧ ((routed 3 3).links (4, 2)).map Prod.fst = some 7 ∧
      (routed 3 3).nextRouter 4 3 = 7 ∧ ¬ RoutesAlongLinks 3 3 ∧ ¬ RoutesAsRead 3 3 := by
  refine ⟨by decide +kernel, by decide +kernel, by decide +kernel, fun h => ?_, fun h => ?_⟩
  · exact not_routesAsRead_inner (by decide) (by decide) (by decide) h.asRead
  · exact not_routesAsRead_inner (by decide) (by decide) (by decide) h

end NocMesh

end Vpsim.Connect
