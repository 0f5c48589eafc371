import Vpsim.Connect.Dijkstra
import Vpsim.Lib.Propagation
import Mathlib.Tactic.IntervalCases

/-!
# The default routes of a network on chip

`BuildDefaultRoutingBidirectional` goes through all pairs of routers. For a pair without an entry it finds a shortest
path and enters it router by router, up to the first router that has an entry for the target already. Entries that were
there before, from `AddRouting`, are kept. Tables of different paths are mixed; what they have in common is that every
entry leads to a router nearer to the target.
-/

namespace Vpsim.Connect

open Vpsim.Lib

namespace NocBase

/-- `NoCGraph`. -/
def graph (n : NocBase) : Graph := ⟨n.graphSize, n.nocGraph⟩

/-- Entries for a target along a path, up to the first router that has one. -/
def addPath (slaveID : ℕ) : List ℕ → NocBase → NocBase
  | cur :: next :: rest, n =>
    let added := n.addRouting cur slaveID ((n.routers2Port (cur, next)).getD 0)
    if added.1 then addPath slaveID (next :: rest) added.2 else added.2
  | _, n => n

/-- The loop body of `BuildDefaultRoutingBidirectional`. -/
def routePair (q : PriorityQueue (ℕ × ℕ) Prod.snd) (rounds : ℕ) (n : NocBase) (pair : ℕ × ℕ) : Except Stop NocBase :=
  if pair.1 = pair.2 then .ok n
  else if (n.routingTables pair).isSome then .ok n
  else (dijkstra q n.graph rounds pair.1 pair.2).map fun path => n.addPath pair.2 path.reverse

/-- `BuildDefaultRoutingBidirectional`. -/
def buildDefaultRoutingBidirectional (q : PriorityQueue (ℕ × ℕ) Prod.snd) (rounds : ℕ) (n : NocBase) :
    Except Stop NocBase :=
  ((n.slowRouterIDs.product n.slowRouterIDs).foldlM (routePair q rounds) n).map fun n =>
    { n with nocGraph := fun _ => [], graphSize := 0 }

/-- The loop of `HopCount`, from a router on with the hops counted so far. -/
def hopCount (n : NocBase) (slaveID : ℕ) : ℕ → ℕ → ℕ → Option ℕ
  | 0, _, _ => none
  | rounds + 1, curRouter, hopCounter =>
    if curRouter = slaveID then some hopCounter
    else n.hopCount slaveID rounds (n.nextRouter curRouter slaveID) (hopCounter + 1)

/-- The network after calls of `AddLink`, with entries by calls of `AddRouting`. -/
def build (calls : List (ℕ × ℕ)) (manual : List RoutingCall) : NocBase := (calls.foldl addLink empty).addRoutings manual

end NocBase

/-- A link was added. -/
def HasLink (calls : List (ℕ × ℕ)) (r d : ℕ) : Prop := (r, d) ∈ calls

/-- Links between routers `0` to `n - 1` by which each of them reaches all. -/
structure StronglyConnected (calls : List (ℕ × ℕ)) (n : ℕ) : Prop where
  inside : ∀ call ∈ calls, call.1 < n ∧ call.2 < n
  reaches : ∀ r < n, ∀ d < n, Reachable (HasLink calls) r d

/-- Following tables and links from a router to a target makes as many hops as the shortest walk along links, and the
loop of `HopCount` ends with this number. -/
def ShortestRoute (calls : List (ℕ × ℕ)) (net : NocBase) (src dst : ℕ) : Prop :=
  ∃ visited, Visits (fun cur next => net.Leads cur dst next) dst src visited ∧
    IsLeast {k | Walk (HasLink calls) src k dst} visited.length ∧
    ∀ rounds, visited.length < rounds → net.hopCount dst rounds src 0 = some visited.length

/-- With enough rounds, the default routing comes back with shortest routes between all routers. -/
def RoutesShortest (q : PriorityQueue (ℕ × ℕ) Prod.snd) (calls : List (ℕ × ℕ)) (manual : List NocBase.RoutingCall)
    (n : ℕ) : Prop :=
  ∃ enough, ∀ rounds, enough ≤ rounds → ∃ net,
    (NocBase.build calls manual).buildDefaultRoutingBidirectional q rounds = .ok net ∧
      ∀ src < n, ∀ dst < n, ShortestRoute calls net src dst

/-- Ids are indices as `int`, and loops over links count in 32 bits. -/
structure Countable (calls : List (ℕ × ℕ)) (n : ℕ) : Prop where
  ids : n ≤ intIds
  links : ∀ r, (NocBase.outOf calls r).length < portIds

/-- No two routers are further apart than `float` counts. -/
def Near (calls : List (ℕ × ℕ)) (n : ℕ) : Prop := ∀ r < n, ∀ d < n, distance (HasLink calls) r d ≤ floatReach

namespace NocBase

variable {calls : List (ℕ × ℕ)} {n : NocBase}

theorem mem_outOf {r d : ℕ} : d ∈ outOf calls r ↔ HasLink calls r d := by
  unfold outOf HasLink
  rw [List.mem_map]
  constructor
  · rintro ⟨⟨r', d'⟩, hcall, rfl⟩
    obtain ⟨hmem, hr⟩ := List.mem_filter.mp hcall
    obtain rfl := of_decide_eq_true hr
    exact hmem
  · intro hmem
    exact ⟨(r, d), List.mem_filter.mpr ⟨hmem, by simp⟩, rfl⟩

/-- Routers of calls, the graph and the ports to neighbours. -/
structure Wired (calls : List (ℕ × ℕ)) (n : NocBase) : Prop extends Linked calls n where
  ids : ∀ r ∈ n.slowRouterIDs, ∃ call ∈ calls, r = call.1 ∨ r = call.2
  size : ∀ r, r < n.graphSize ↔ ∃ call ∈ calls, r ≤ call.1
  toNeighbour : ∀ r, ∀ d ∈ outOf calls r, (outOf calls r).length ≤ portIds →
    ∃ outPort, n.routers2Port (r, d) = some outPort ∧ (outOf calls r)[outPort]? = some d

theorem empty_wired : Wired [] empty where
  toLinked := empty_linked
  ids := nofun
  size _ := ⟨nofun, fun h => nomatch h.choose_spec.1⟩
  toNeighbour := nofun

theorem addRouter_wiring (n : NocBase) (router : ℕ) :
    (n.addRouter router).routers2Port = n.routers2Port ∧ (n.addRouter router).graphSize = n.graphSize := by
  unfold addRouter
  split <;> exact ⟨rfl, rfl⟩

theorem Wired.addLink (h : Wired calls n) (call : ℕ × ℕ) : Wired (calls ++ [call]) (n.addLink call) := by
  have hports : ((n.addRouter call.1).addRouter call.2).routerOutputPortsCount call.1 =
      (outOf calls call.1).length % portIds := ((h.toLinked.addRouter call.1).addRouter call.2).ports call.1
  have hwiring : (n.addLink call).routers2Port = Function.update n.routers2Port call
      (some ((outOf calls call.1).length % portIds)) := by
    change Function.update _ _ _ = _
    rw [(addRouter_wiring _ _).1, (addRouter_wiring _ _).1, hports]
  refine ⟨h.toLinked.addLink call, fun r hr => ?_, fun r => ?_, fun r d hd hfits => ?_⟩
  · rcases mem_addRouter.mp hr with rfl | hr
    · exact ⟨call, List.mem_append_right _ List.mem_cons_self, Or.inr rfl⟩
    · rcases mem_addRouter.mp hr with rfl | hr
      · exact ⟨call, List.mem_append_right _ List.mem_cons_self, Or.inl rfl⟩
      · obtain ⟨other, hother, heq⟩ := h.ids r hr
        exact ⟨other, List.mem_append_left _ hother, heq⟩
  · have hsize : (n.addLink call).graphSize = max n.graphSize (call.1 + 1) := by
      change max _ _ = _
      rw [(addRouter_wiring _ _).2, (addRouter_wiring _ _).2]
    rw [hsize, lt_max_iff, h.size]
    constructor
    · rintro (⟨other, hother, hle⟩ | hlt)
      · exact ⟨other, List.mem_append_left _ hother, hle⟩
      · exact ⟨call, List.mem_append_right _ List.mem_cons_self, Nat.le_of_lt_succ hlt⟩
    · rintro ⟨other, hother, hle⟩
      rcases List.mem_append.mp hother with hother | hother
      · exact Or.inl ⟨other, hother, hle⟩
      · rw [List.mem_singleton.mp hother] at hle
        exact Or.inr (Nat.lt_succ_of_le hle)
  · rw [hwiring]
    rw [outOf_append] at hd hfits ⊢
    by_cases hr : call.1 = r
    · rw [if_pos hr] at hd hfits ⊢
      rw [List.length_append, List.length_singleton] at hfits
      by_cases hdst : d = call.2
      · refine ⟨(outOf calls r).length, ?_, ?_⟩
        · rw [hdst, ← hr, Function.update_self, Nat.mod_eq_of_lt]
          rw [hr]
          exact hfits
        · rw [List.getElem?_append_right (Nat.le_refl _), Nat.sub_self, hdst]
          rfl
      · have hold : d ∈ outOf calls r :=
          (List.mem_append.mp hd).resolve_right fun hmem => hdst (List.mem_singleton.mp hmem)
        obtain ⟨outPort, hport, hget⟩ := h.toNeighbour r d hold (Nat.le_of_succ_le hfits)
        refine ⟨outPort, ?_, ?_⟩
        · rw [Function.update_of_ne fun heq => hdst (congrArg Prod.snd heq)]
          exact hport
        · rw [List.getElem?_append_left (List.getElem?_eq_some_iff.mp hget).1]
          exact hget
    · rw [if_neg hr] at hd hfits ⊢
      rw [Function.update_of_ne fun heq => hr (congrArg Prod.fst heq).symm]
      exact h.toNeighbour r d hd hfits

theorem Wired.foldl {before : List (ℕ × ℕ)} (h : Wired before n) (calls : List (ℕ × ℕ)) :
    Wired (before ++ calls) (calls.foldl NocBase.addLink n) := by
  induction calls generalizing before n with
  | nil =>
    rw [List.append_nil]
    exact h
  | cons call calls ih =>
    have hnext := ih (h.addLink call)
    rw [List.append_assoc] at hnext
    exact hnext

/-- A network with other tables. -/
def withTables (n : NocBase) (tables : ℕ × ℕ → Option ℕ) : NocBase := { n with routingTables := tables }

theorem Wired.withTables (h : Wired calls n) (tables : ℕ × ℕ → Option ℕ) : Wired calls (n.withTables tables) :=
  ⟨⟨h.routers, h.ports, h.links, h.graph⟩, h.ids, h.size, h.toNeighbour⟩

theorem addRouting_withTables (router target outPort : ℕ) :
    ∃ tables, (n.addRouting router target outPort).2 = n.withTables tables := by
  unfold addRouting
  split
  · exact ⟨n.routingTables, rfl⟩
  · exact ⟨_, rfl⟩

theorem addRoutings_withTables (manual : List RoutingCall) : ∃ tables, n.addRoutings manual = n.withTables tables := by
  induction manual generalizing n with
  | nil => exact ⟨n.routingTables, rfl⟩
  | cons call manual ih =>
    obtain ⟨tables, htables⟩ := @addRouting_withTables n call.router call.target call.outPort
    obtain ⟨tables', htables'⟩ := @ih (n.addRouting call.router call.target call.outPort).2
    refine ⟨tables', htables'.trans ?_⟩
    rw [htables]
    rfl

theorem build_wired (calls : List (ℕ × ℕ)) (manual : List RoutingCall) : Wired calls (build calls manual) := by
  obtain ⟨tables, htables⟩ := @addRoutings_withTables (calls.foldl NocBase.addLink empty) manual
  unfold build
  rw [htables]
  exact (empty_wired.foldl calls).withTables tables

/-- The port to a neighbour leads there. -/
theorem Wired.links_toNeighbour (h : Wired calls n) {r d : ℕ} (hfew : (outOf calls r).length ≤ portIds)
    (hlink : HasLink calls r d) : ∃ inPort, n.links (r, (n.routers2Port (r, d)).getD 0) = some (d, inPort) := by
  obtain ⟨outPort, hport, hget⟩ := h.toNeighbour r d (mem_outOf.mpr hlink) hfew
  have hfirst := h.links r outPort hfew
  rw [hget] at hfirst
  obtain ⟨⟨d', inPort⟩, hlinks, rfl⟩ := Option.map_eq_some_iff.mp hfirst
  refine ⟨inPort, ?_⟩
  rw [hport]
  exact hlinks

/-- Where a port leads, a link was added. -/
theorem Wired.hasLink (h : Wired calls n) {r port next inPort : ℕ} (hfew : (outOf calls r).length ≤ portIds)
    (hlinks : n.links (r, port) = some (next, inPort)) : HasLink calls r next := by
  have hfirst := h.links r port hfew
  rw [hlinks] at hfirst
  exact mem_outOf.mp (List.mem_of_getElem? hfirst.symm)

theorem Wired.edge_eq (h : Wired calls n) : n.graph.edge = HasLink calls := by
  funext u v
  have hgraph : n.graph.out u = outOf calls u := h.graph u
  unfold Graph.edge
  rw [hgraph]
  exact propext mem_outOf

/-- The entries that a path adds are those of its neighbours; others are kept, and its first router has one. -/
structure PathAdded (slaveID : ℕ) (R : ℕ → ℕ → Prop) (path : List ℕ) (n n' : NocBase) : Prop where
  rest : ∃ tables, n' = n.withTables tables
  keeps : ∀ key outPort, n.routingTables key = some outPort → n'.routingTables key = some outPort
  entries : ∀ key outPort, n'.routingTables key = some outPort → n.routingTables key = some outPort ∨
    key.2 = slaveID ∧ ∃ next, R key.1 next ∧ outPort = (n.routers2Port (key.1, next)).getD 0
  first : ∀ cur next rest, path = cur :: next :: rest → (n'.routingTables (cur, slaveID)).isSome

theorem addPath_added (slaveID : ℕ) {R : ℕ → ℕ → Prop} {path : List ℕ} (hpath : path.IsChain R) :
    PathAdded slaveID R path n (n.addPath slaveID path) := by
  induction path generalizing n with
  | nil => exact ⟨⟨n.routingTables, rfl⟩, fun _ _ => id, fun _ _ => Or.inl, nofun⟩
  | cons cur path ih =>
    cases path with
    | nil => exact ⟨⟨n.routingTables, rfl⟩, fun _ _ => id, fun _ _ => Or.inl, nofun⟩
    | cons next path =>
      obtain ⟨hR, hrest⟩ := List.isChain_cons_cons.mp hpath
      obtain ⟨outPort, hport⟩ : ∃ outPort, outPort = (n.routers2Port (cur, next)).getD 0 := ⟨_, rfl⟩
      by_cases hset : (n.routingTables (cur, slaveID)).isSome
      · have hadd : n.addPath slaveID (cur :: next :: path) = n := by
          unfold addPath addRouting
          simp only [hset, if_true, Bool.false_eq_true, if_false]
        rw [hadd]
        refine ⟨⟨n.routingTables, rfl⟩, fun _ _ => id, fun _ _ => Or.inl, fun cur' next' rest heq => ?_⟩
        rw [← (List.cons.inj heq).1]
        exact hset
      · have hadd : n.addPath slaveID (cur :: next :: path) =
            (n.addRouting cur slaveID outPort).2.addPath slaveID (next :: path) := by
          rw [addPath, ← hport]
          unfold addRouting
          simp only [hset, Bool.false_eq_true, if_false, if_true]
        obtain ⟨tables, htables⟩ := @addRouting_withTables n cur slaveID outPort
        have hnone : n.routingTables (cur, slaveID) = none := Option.not_isSome_iff_eq_none.mp hset
        have hfirst : (n.addRouting cur slaveID outPort).2.routingTables (cur, slaveID) = some outPort := by
          rw [addRouting_tables, if_pos ⟨hnone, rfl⟩]
        obtain ⟨⟨tables', hrest'⟩, hkeeps, hentries, -⟩ := @ih (n.addRouting cur slaveID outPort).2 hrest
        rw [hadd]
        refine ⟨⟨tables', ?_⟩, fun key p hp => hkeeps key p ?_, fun key p hp => ?_, fun cur' next' rest heq => ?_⟩
        · rw [hrest', htables]
          rfl
        · rw [addRouting_tables, if_neg, hp]
          rintro ⟨hnone', -⟩
          rw [hp] at hnone'
          cases hnone'
        · rcases hentries key p hp with hold | ⟨hkey, next', hR', hp'⟩
          · rw [addRouting_tables] at hold
            split at hold
            · rename_i hnew
              rw [hnew.2]
              exact Or.inr ⟨rfl, next, hR, (Option.some.inj hold).symm.trans hport⟩
            · exact Or.inl hold
          · rw [htables] at hp'
            exact Or.inr ⟨hkey, next', hR', hp'⟩
        · rw [← (List.cons.inj heq).1, hkeeps _ _ hfirst]
          rfl

end NocBase

theorem Trail.reaches {edge : ℕ → ℕ → Prop} {source v : ℕ} {path : List ℕ} (h : Trail edge source v path) :
    Reachable edge source v := by
  induction h with
  | start => exact .refl source
  | back hedge _ _ ih => exact ih.snoc hedge

/-- The routers of a path, from the source on, get nearer to the target one by one. -/
theorem Trail.closer {edge : ℕ → ℕ → Prop} {source v target : ℕ} {path : List ℕ} (h : Trail edge source v path)
    (htarget : ∀ x, Reachable edge source x → Reachable edge x target)
    (hbetween : distance edge source v + distance edge v target = distance edge source target) :
    path.IsChain fun next cur => Closer edge target cur next := by
  induction h with
  | start => exact List.isChain_singleton _
  | @back u v rest hedge hnear hrest ih =>
    obtain ⟨hcloser, hbetween'⟩ := closer_of_between hrest.reaches htarget hedge hnear hbetween
    obtain ⟨tail, rfl⟩ := List.head?_eq_some_iff.mp hrest.shape.1
    exact List.isChain_cons_cons.mpr ⟨hcloser, ih hbetween'⟩

/-- Steps that get nearer to the target one by one make a shortest walk. -/
theorem visits_of_closer {edge step : ℕ → ℕ → Prop} {target : ℕ} {P : ℕ → Prop}
    (hstep : ∀ r, P r → r ≠ target → ∃ next, step r next ∧ P next ∧ Closer edge target r next) {src : ℕ} (hsrc : P src)
    (hreach : ∀ r, P r → Reachable edge r target) :
    ∃ visited, Visits step target src visited ∧ visited.length = distance edge src target := by
  obtain ⟨n, hn⟩ : ∃ n, distance edge src target = n := ⟨_, rfl⟩
  induction n generalizing src with
  | zero =>
    obtain rfl := eq_of_distance_eq_zero (hreach src hsrc) hn
    exact ⟨[], .here, hn.symm⟩
  | succ n ih =>
    have hne : src ≠ target := by
      rintro rfl
      rw [distance_self] at hn
      cases hn
    obtain ⟨next, hnext, hP, -, hcloser⟩ := hstep src hsrc hne
    obtain ⟨visited, hvisits, hlength⟩ := ih hP (by omega)
    refine ⟨next :: visited, .hop hne hnext hvisits, ?_⟩
    rw [List.length_cons, hlength]
    exact hcloser

namespace NocBase

variable {calls : List (ℕ × ℕ)} {n : NocBase}

/-- The loop of `HopCount` counts the routers that it visits. -/
theorem hopCount_of_visits {dst cur : ℕ} {visited : List ℕ}
    (h : Visits (fun cur next => n.Leads cur dst next) dst cur visited) {rounds : ℕ} (hrounds : visited.length < rounds)
    (hops : ℕ) : n.hopCount dst rounds cur hops = some (hops + visited.length) := by
  induction h generalizing rounds hops with
  | here =>
    obtain ⟨rounds, rfl⟩ := Nat.exists_eq_succ_of_ne_zero (Nat.ne_of_gt (Nat.zero_lt_of_lt hrounds))
    exact if_pos rfl
  | @hop cur next rest hne hstep _ ih =>
    obtain ⟨rounds, rfl⟩ := Nat.exists_eq_succ_of_ne_zero (Nat.ne_of_gt (Nat.zero_lt_of_lt hrounds))
    rw [List.length_cons] at hrounds ⊢
    have hrest := ih (Nat.lt_of_succ_lt_succ hrounds) (hops + 1)
    refine (if_neg hne).trans ?_
    rw [hstep.nextRouter, hrest]
    congr 1
    omega

/-- An entry leads along a link to a router nearer to the target. -/
def LeadsCloser (calls : List (ℕ × ℕ)) (n : NocBase) (r d outPort : ℕ) : Prop :=
  ∃ next inPort, n.links (r, outPort) = some (next, inPort) ∧ Closer (HasLink calls) d r next

/-- All entries between different routers lead closer. -/
def AllCloser (calls : List (ℕ × ℕ)) (count : ℕ) (n : NocBase) : Prop :=
  ∀ r < count, ∀ d < count, r ≠ d → ∀ outPort, n.routingTables (r, d) = some outPort → n.LeadsCloser calls r d outPort

end NocBase

section Strong

variable {q : PriorityQueue (ℕ × ℕ) Prod.snd} {calls : List (ℕ × ℕ)} {count : ℕ} {n : NocBase}

theorem StronglyConnected.lt_of_reaches (h : StronglyConnected calls count) {r d : ℕ} (hr : r < count)
    (hreach : Reachable (HasLink calls) r d) : d < count := by
  obtain ⟨k, hwalk⟩ := hreach
  exact hwalk.mem (P := fun v => v < count) (fun a b hlink _ => (h.inside (a, b) hlink).2) hr

/-- Of two routers, each has a link. -/
theorem StronglyConnected.exists_link (h : StronglyConnected calls count) {r d v : ℕ} (hr : r < count) (hd : d < count)
    (hne : r ≠ d) (hv : v < count) : ∃ next, HasLink calls v next := by
  obtain ⟨w, hw, hvw⟩ : ∃ w < count, v ≠ w := by
    by_cases hvr : v = r
    · exact ⟨d, hd, hvr ▸ hne⟩
    · exact ⟨r, hr, hvr⟩
  obtain ⟨k, hwalk⟩ := h.reaches v hv w hw
  cases hwalk with
  | stay => exact absurd rfl hvw
  | step hedge _ => exact ⟨_, hedge⟩

theorem Countable.fits (hcount : Countable calls count) (h : StronglyConnected calls count) (hn : n.Wired calls)
    {r d : ℕ} (hr : r < count) (hd : d < count) (hne : r ≠ d) : n.graph.Fits ∧ ∀ v < count, v < n.graph.size := by
  have hsize : ∀ v < count, v < n.graphSize := by
    intro v hv
    obtain ⟨next, hlink⟩ := h.exists_link hr hd hne hv
    exact (hn.size v).mpr ⟨(v, next), hlink, Nat.le_refl v⟩
  have hout : ∀ u, n.graph.out u = NocBase.outOf calls u := hn.graph
  refine ⟨⟨?_, fun u _ => ?_, fun u v hv => ?_⟩, hsize⟩
  · have hle : n.graphSize ≤ count := by
      by_contra hlt
      obtain ⟨call, hcall, hle⟩ := (hn.size count).mp (Nat.not_le.mp hlt)
      have := (h.inside call hcall).1
      omega
    exact Nat.le_trans hle hcount.ids
  · rw [hout]
    exact hcount.links u
  · rw [hout] at hv
    exact hsize v (h.inside (u, v) (NocBase.mem_outOf.mp hv)).2

/-- A pair of routers gets an entry, and all entries still lead closer. -/
theorem routePair_ok (q : PriorityQueue (ℕ × ℕ) Prod.snd) (hcount : Countable calls count)
    (h : StronglyConnected calls count) (hnear : Near calls count) (hn : n.Wired calls) {rounds : ℕ}
    (hrounds : n.graph.Enough rounds) (hcloser : n.AllCloser calls count) {pair : ℕ × ℕ} (hr : pair.1 < count)
    (hd : pair.2 < count) :
    ∃ n', NocBase.routePair q rounds n pair = .ok n' ∧ (∃ tables, n' = n.withTables tables) ∧
      n'.AllCloser calls count ∧
      (∀ key outPort, n.routingTables key = some outPort → n'.routingTables key = some outPort) ∧
      (pair.1 ≠ pair.2 → (n'.routingTables pair).isSome) := by
  unfold NocBase.routePair
  by_cases hsame : pair.1 = pair.2
  · exact ⟨n, if_pos hsame, ⟨n.routingTables, rfl⟩, hcloser, fun _ _ => id, fun hne => absurd hsame hne⟩
  · rw [if_neg hsame]
    by_cases hset : (n.routingTables pair).isSome
    · exact ⟨n, if_pos hset, ⟨n.routingTables, rfl⟩, hcloser, fun _ _ => id, fun _ => hset⟩
    · rw [if_neg hset]
      obtain ⟨hfits, hsize⟩ := hcount.fits h hn hr hd hsame
      have hedge := hn.edge_eq
      obtain ⟨path, hpath, htrail⟩ := dijkstra_ok q hfits (hsize _ hr) hrounds
        (hedge ▸ h.reaches _ hr _ hd) (hedge ▸ hnear _ hr _ hd)
      rw [hedge] at htrail
      have htarget : ∀ x, Reachable (HasLink calls) pair.1 x → Reachable (HasLink calls) x pair.2 :=
        fun x hx => h.reaches x (h.lt_of_reaches hr hx) _ hd
      have hchain := htrail.closer htarget (by rw [distance_self, Nat.add_zero])
      have hadded := NocBase.addPath_added (n := n) pair.2 (List.isChain_reverse.mpr hchain)
      refine ⟨n.addPath pair.2 path.reverse, congrArg (Except.map _) hpath, hadded.rest, ?_, hadded.keeps, fun _ => ?_⟩
      · intro r hr' d hd' hne outPort hentry
        obtain ⟨tables, htables⟩ := hadded.rest
        rcases hadded.entries _ _ hentry with hold | ⟨hkey, next, hnext, hport⟩
        · rw [htables]
          exact hcloser r hr' d hd' hne outPort hold
        · obtain rfl : d = pair.2 := hkey
          obtain ⟨inPort, hlinks⟩ := hn.links_toNeighbour (Nat.le_of_lt (hcount.links r)) hnext.1
          rw [htables]
          exact ⟨next, inPort, hport ▸ hlinks, hnext⟩
      · have hshape := htrail.shape
        obtain ⟨rest, hrest⟩ := List.head?_eq_some_iff.mp (List.head?_reverse.trans hshape.2.1)
        cases rest with
        | nil =>
          have hone : path = [pair.1] := (List.reverse_reverse path).symm.trans (congrArg List.reverse hrest)
          rw [hone] at hshape
          exact absurd (Option.some.inj hshape.1) hsame
        | cons next rest => exact hadded.first _ _ _ hrest

/-- Routing all pairs of a list returns, keeps the entries that were there and leaves only entries that
lead closer. -/
theorem routePairs_ok (q : PriorityQueue (ℕ × ℕ) Prod.snd) (hcount : Countable calls count)
    (h : StronglyConnected calls count) (hnear : Near calls count) {rounds : ℕ} {pairs : List (ℕ × ℕ)}
    (hpairs : ∀ pair ∈ pairs, pair.1 < count ∧ pair.2 < count) (hn : n.Wired calls)
    (hrounds : n.graph.Enough rounds) (hcloser : n.AllCloser calls count) :
    ∃ n', pairs.foldlM (NocBase.routePair q rounds) n = .ok n' ∧ (∃ tables, n' = n.withTables tables) ∧
      n'.AllCloser calls count ∧
      (∀ key outPort, n.routingTables key = some outPort → n'.routingTables key = some outPort) ∧
      ∀ pair ∈ pairs, pair.1 ≠ pair.2 → (n'.routingTables pair).isSome := by
  induction pairs generalizing n with
  | nil => exact ⟨n, rfl, ⟨n.routingTables, rfl⟩, hcloser, fun _ _ => id, nofun⟩
  | cons pair pairs ih =>
    obtain ⟨hr, hd⟩ := hpairs pair List.mem_cons_self
    obtain ⟨n₁, hfirst, ⟨tables, rfl⟩, hcloser₁, hkeeps₁, hset₁⟩ :=
      routePair_ok q hcount h hnear hn hrounds hcloser hr hd
    obtain ⟨n₂, hrest, ⟨tables', rfl⟩, hcloser₂, hkeeps₂, hset₂⟩ :=
      ih (fun pair hpair => hpairs pair (List.mem_cons_of_mem _ hpair)) (hn.withTables tables) hrounds hcloser₁
    refine ⟨_, ?_, ⟨tables', rfl⟩, hcloser₂, fun key p hp => hkeeps₂ key p (hkeeps₁ key p hp), fun p hp hne => ?_⟩
    · rw [List.foldlM_cons, hfirst]
      exact hrest
    · rcases List.mem_cons.mp hp with rfl | hp
      · obtain ⟨outPort, hport⟩ := Option.isSome_iff_exists.mp (hset₁ hne)
        exact Option.isSome_iff_exists.mpr ⟨outPort, hkeeps₂ _ _ hport⟩
      · exact hset₂ p hp hne

/-- A network whose entries all lead closer, with an entry for every pair, has shortest routes. -/
theorem NocBase.AllCloser.shortestRoute (h : StronglyConnected calls count) (hcloser : n.AllCloser calls count)
    (hset : ∀ r < count, ∀ d < count, r ≠ d → (n.routingTables (r, d)).isSome) {src dst : ℕ} (hsrc : src < count)
    (hdst : dst < count) : ShortestRoute calls n src dst := by
  have hstep : ∀ r < count, r ≠ dst → ∃ next, n.Leads r dst next ∧ next < count ∧
      Closer (HasLink calls) dst r next := by
    intro r hr hne
    obtain ⟨outPort, hport⟩ := Option.isSome_iff_exists.mp (hset r hr dst hdst hne)
    obtain ⟨next, inPort, hlinks, hnext⟩ := hcloser r hr dst hdst hne outPort hport
    exact ⟨next, ⟨outPort, inPort, hport, hlinks⟩, (h.inside (r, next) hnext.1).2, hnext⟩
  obtain ⟨visited, hvisits, hlength⟩ := visits_of_closer hstep hsrc fun r hr => h.reaches r hr dst hdst
  refine ⟨visited, hvisits, hlength ▸ isLeast_distance (h.reaches src hsrc dst hdst), fun rounds hrounds => ?_⟩
  rw [NocBase.hopCount_of_visits hvisits hrounds, Nat.zero_add]

/-- The routers of a network of two or more are those that have links. -/
theorem StronglyConnected.mem_routers (h : StronglyConnected calls count) (hn : n.Wired calls) {r : ℕ} :
    (r ∈ n.slowRouterIDs → r < count) ∧ (r < count → ∀ d < count, r ≠ d → r ∈ n.slowRouterIDs) := by
  refine ⟨fun hr => ?_, fun hr d hd hne => ?_⟩
  · obtain ⟨call, hcall, heq⟩ := hn.ids r hr
    have hinside := h.inside call hcall
    rcases heq with rfl | rfl
    · exact hinside.1
    · exact hinside.2
  · obtain ⟨next, hlink⟩ := h.exists_link hr hd hne hr
    exact (hn.routers (r, next) hlink).1

/-- Where the entries given by hand all lead closer, the default routing makes all routes shortest. -/
theorem routesShortest_of_closer (q : PriorityQueue (ℕ × ℕ) Prod.snd) (hcount : Countable calls count)
    (h : StronglyConnected calls count) (hnear : Near calls count) {manual : List NocBase.RoutingCall}
    (hcloser : (NocBase.build calls manual).AllCloser calls count) : RoutesShortest q calls manual count := by
  have hn := NocBase.build_wired calls manual
  obtain ⟨enough, henough⟩ := (NocBase.build calls manual).graph.exists_enough
  refine ⟨enough, fun rounds hrounds => ?_⟩
  have hpairs : ∀ pair ∈ (NocBase.build calls manual).slowRouterIDs.product (NocBase.build calls manual).slowRouterIDs,
      pair.1 < count ∧ pair.2 < count := by
    intro pair hpair
    obtain ⟨hr, hd⟩ := List.mem_product.mp hpair
    exact ⟨(h.mem_routers hn).1 hr, (h.mem_routers hn).1 hd⟩
  obtain ⟨n', hfold, ⟨tables, rfl⟩, hcloser', -, hset⟩ :=
    routePairs_ok q hcount h hnear hpairs hn (henough rounds hrounds) hcloser
  refine ⟨_, congrArg (Except.map _) hfold, fun src hsrc dst hdst => ?_⟩
  refine NocBase.AllCloser.shortestRoute h ?_ (fun r hr d hd hne => ?_) hsrc hdst
  · exact hcloser'
  refine hset (r, d) (List.mem_product.mpr ⟨?_, ?_⟩) hne
  · exact (h.mem_routers hn).2 hr d hd hne
  · exact (h.mem_routers hn).2 hd r hr hne.symm

theorem isChain_of_tail {α : Type} {P : α → Prop} {l : List α} (h : ∀ a ∈ l.tail, P a) :
    l.IsChain fun _ a => P a := by
  induction l with
  | nil => exact List.isChain_nil
  | cons a l ih =>
    cases l with
    | nil => exact List.isChain_singleton a
    | cons b l =>
      exact List.isChain_cons_cons.mpr ⟨h b List.mem_cons_self, ih fun c hc => h c (List.mem_cons_of_mem b hc)⟩

/-- Routers that have an entry were expanded by a search. -/
theorem expands_routePair {rounds : ℕ} {pair : ℕ × ℕ} {n' : NocBase}
    (hset : ∀ key, (n.routingTables key).isSome → n.graph.Expands key.1)
    (hrun : NocBase.routePair q rounds n pair = .ok n') :
    n'.graph = n.graph ∧ ∀ key, (n'.routingTables key).isSome → n.graph.Expands key.1 := by
  unfold NocBase.routePair at hrun
  split at hrun
  · cases hrun
    exact ⟨rfl, hset⟩
  · split at hrun
    · cases hrun
      exact ⟨rfl, hset⟩
    · cases hpath : dijkstra q n.graph rounds pair.1 pair.2 with
      | error e =>
        rw [hpath] at hrun
        cases hrun
      | ok path =>
        rw [hpath] at hrun
        obtain rfl := Except.ok.inj hrun
        have hchain : path.reverse.IsChain fun cur _ => n.graph.Expands cur :=
          List.isChain_reverse.mpr (isChain_of_tail (expands_dijkstra hpath))
        have hadded := NocBase.addPath_added (n := n) pair.2 hchain
        obtain ⟨tables, htables⟩ := hadded.rest
        refine ⟨(congrArg NocBase.graph htables :), fun key hkey => ?_⟩
        obtain ⟨outPort, hport⟩ := Option.isSome_iff_exists.mp hkey
        rcases hadded.entries key outPort hport with hold | ⟨-, next, hexpands, -⟩
        · exact hset key (hold ▸ rfl)
        · exact hexpands

theorem expands_build {rounds : ℕ} {n' : NocBase} (hnone : ∀ key, n.routingTables key = none)
    (hrun : n.buildDefaultRoutingBidirectional q rounds = .ok n') (key : ℕ × ℕ)
    (hkey : (n'.routingTables key).isSome) : n.graph.Expands key.1 := by
  have hfold := foldlM_spec (f := NocBase.routePair q rounds)
    (P := fun t => t.graph = n.graph ∧ ∀ key, (t.routingTables key).isSome → n.graph.Expands key.1)
    (Q := fun _ => True) (l := n.slowRouterIDs.product n.slowRouterIDs)
    (fun t ht pair _ t' hrun => by
      obtain ⟨hgraph, hset⟩ := expands_routePair (fun key hkey => ht.1 ▸ ht.2 key hkey) hrun
      exact ⟨hgraph.trans ht.1, fun key hkey => ht.1 ▸ hset key hkey⟩)
    (fun _ _ _ _ _ _ => trivial) (s := n) ⟨rfl, fun key hkey => by rw [hnone] at hkey; cases hkey⟩
  unfold NocBase.buildDefaultRoutingBidirectional at hrun
  cases hpairs : (n.slowRouterIDs.product n.slowRouterIDs).foldlM (NocBase.routePair q rounds) n with
  | error e =>
    rw [hpairs] at hrun
    cases hrun
  | ok t =>
    rw [hpairs] at hrun
    obtain rfl := Except.ok.inj hrun
    exact (hfold.1 t hpairs).2 key hkey

/-- Where routes are shortest, every router that has to lead to another one was expanded. -/
theorem countable_of_routesShortest (h : StronglyConnected calls count) (hroutes : RoutesShortest q calls [] count) :
    count ≤ 1 ∨ Countable calls count := by
  by_cases htwo : count ≤ 1
  · exact Or.inl htwo
  · right
    have hn := NocBase.build_wired calls []
    obtain ⟨enough, henough⟩ := hroutes
    obtain ⟨net, hrun, hshortest⟩ := henough enough (Nat.le_refl _)
    have hnone : ∀ key, (NocBase.build calls []).routingTables key = none := by
      intro key
      have htables := congrFun (NocBase.addLinks_tables NocBase.empty calls) key
      exact htables
    have hexpands : ∀ r < count, r < intIds ∧ (NocBase.outOf calls r).length < portIds := by
      intro r hr
      obtain ⟨d, hd, hne⟩ : ∃ d < count, r ≠ d := by
        by_cases hzero : r = 0
        · exact ⟨1, by omega, by omega⟩
        · exact ⟨0, by omega, hzero⟩
      obtain ⟨visited, hvisits, -⟩ := hshortest r hr d hd
      cases hvisits with
      | here => exact absurd rfl hne
      | hop _ hstep _ =>
        obtain ⟨outPort, -, hentry, -⟩ := hstep
        have hexpand := expands_build hnone hrun (r, d) (hentry ▸ rfl)
        have hout : (NocBase.build calls []).graph.out r = NocBase.outOf calls r := hn.graph r
        unfold Graph.Expands at hexpand
        rw [hout] at hexpand
        exact hexpand
    refine ⟨?_, fun r => ?_⟩
    · by_contra hlt
      exact Nat.lt_irrefl _ (hexpands intIds (Nat.not_le.mp hlt)).1
    · by_cases hr : r < count
      · exact (hexpands r hr).2
      · have hempty : NocBase.outOf calls r = [] := by
          rw [List.eq_nil_iff_forall_not_mem]
          exact fun d hd => hr (h.inside (r, d) (NocBase.mem_outOf.mp hd)).1
        rw [hempty]
        decide

/-- With one router there is nothing to route. -/
theorem routesShortest_of_le_one (q : PriorityQueue (ℕ × ℕ) Prod.snd) (h : StronglyConnected calls count)
    (hone : count ≤ 1) : RoutesShortest q calls [] count := by
  have hn := NocBase.build_wired calls []
  refine ⟨0, fun rounds _ => ?_⟩
  have hpairs : ∀ pairs : List (ℕ × ℕ), (∀ pair ∈ pairs, pair.1 = pair.2) →
      pairs.foldlM (NocBase.routePair q rounds) (NocBase.build calls []) = .ok (NocBase.build calls []) := by
    intro pairs hsame
    induction pairs with
    | nil => rfl
    | cons pair pairs ih =>
      have hfirst : NocBase.routePair q rounds (NocBase.build calls []) pair = .ok (NocBase.build calls []) :=
        if_pos (hsame pair List.mem_cons_self)
      rw [List.foldlM_cons, hfirst]
      exact ih fun pair hpair => hsame pair (List.mem_cons_of_mem _ hpair)
  refine ⟨_, congrArg (Except.map _) (hpairs _ fun pair hpair => ?_), fun src hsrc dst hdst => ?_⟩
  · obtain ⟨hr, hd⟩ := List.mem_product.mp hpair
    have hr' := (h.mem_routers hn).1 hr
    have hd' := (h.mem_routers hn).1 hd
    omega
  · obtain rfl : src = dst := by omega
    refine ⟨[], .here, ⟨.stay src, fun _ _ => Nat.zero_le _⟩, fun rounds hrounds => ?_⟩
    rw [NocBase.hopCount_of_visits .here hrounds]
    rfl

/-- The default routes are shortest exactly if ids are indices and loops over links count up to their number, as long
as no two routers are too far apart for `float`; and only then at any distance. -/
theorem default_routes_shortest_iff (q : PriorityQueue (ℕ × ℕ) Prod.snd) (h : StronglyConnected calls count) :
    (Near calls count → (RoutesShortest q calls [] count ↔ count ≤ 1 ∨ Countable calls count)) ∧
      (RoutesShortest q calls [] count → count ≤ 1 ∨ Countable calls count) := by
  refine ⟨fun hnear => ⟨countable_of_routesShortest h, fun hcond => ?_⟩, countable_of_routesShortest h⟩
  rcases hcond with hone | hcount
  · exact routesShortest_of_le_one q h hone
  · refine routesShortest_of_closer q hcount h hnear fun r _ d _ _ outPort hentry => ?_
    have htables := congrFun (NocBase.addLinks_tables NocBase.empty calls) (r, d)
    cases htables.symm.trans hentry

/-- Without entries made before, there is none that does not lead closer. -/
theorem NocBase.build_closer (calls : List (ℕ × ℕ)) (count : ℕ) : (NocBase.build calls []).AllCloser calls count := by
  intro r _ d _ _ outPort hentry
  have htables := congrFun (NocBase.addLinks_tables NocBase.empty calls) (r, d)
  cases htables.symm.trans hentry

theorem NocBase.outOf_length_le (calls : List (ℕ × ℕ)) (r : ℕ) : (NocBase.outOf calls r).length ≤ calls.length := by
  unfold NocBase.outOf
  rw [List.length_map]
  exact List.length_filter_le _ _

/-- Three routers in a circle. -/
def circleLinks : List (ℕ × ℕ) := [(0, 1), (1, 2), (2, 0)]

theorem walk_circleLinks (k : ℕ) {r : ℕ} (hr : r < 3) : Walk (HasLink circleLinks) r k ((r + k) % 3) := by
  induction k generalizing r with
  | zero =>
    rw [Nat.add_zero, Nat.mod_eq_of_lt hr]
    exact .stay r
  | succ k ih =>
    have hlink : HasLink circleLinks r ((r + 1) % 3) := by
      unfold HasLink circleLinks
      interval_cases r <;> decide
    have hrest := ih (Nat.mod_lt (r + 1) (by decide))
    rw [show ((r + 1) % 3 + k) % 3 = (r + (k + 1)) % 3 by omega] at hrest
    exact .step hlink hrest

theorem walk_between_circleLinks {r d : ℕ} (hr : r < 3) (hd : d < 3) :
    Walk (HasLink circleLinks) r ((d + 3 - r) % 3) d := by
  have hwalk := walk_circleLinks ((d + 3 - r) % 3) hr
  rwa [show (r + (d + 3 - r) % 3) % 3 = d by omega] at hwalk

theorem stronglyConnected_circleLinks : StronglyConnected circleLinks 3 :=
  ⟨by decide, fun _ hr _ hd => ⟨_, walk_between_circleLinks hr hd⟩⟩

theorem default_routes_shortest_circle : RoutesShortest (.sorted Prod.snd) circleLinks [] 3 := by
  have hnear : Near circleLinks 3 := fun r hr d hd =>
    (distance_le (walk_between_circleLinks hr hd)).trans ((Nat.mod_lt _ (by decide)).le.trans (by decide))
  refine ((default_routes_shortest_iff _ stronglyConnected_circleLinks).1 hnear).mpr (Or.inr ⟨by decide, fun r => ?_⟩)
  exact (NocBase.outOf_length_le circleLinks r).trans_lt (by decide)

/-- So many links to another router, and one back. -/
def manyLinks (k : ℕ) : List (ℕ × ℕ) := List.replicate k (0, 1) ++ [(1, 0)]

theorem stronglyConnected_manyLinks {k : ℕ} (hk : 0 < k) : StronglyConnected (manyLinks k) 2 := by
  have hforth : HasLink (manyLinks k) 0 1 := List.mem_append_left _ (List.mem_replicate.mpr ⟨hk.ne', rfl⟩)
  have hback : HasLink (manyLinks k) 1 0 := List.mem_append_right _ List.mem_cons_self
  refine ⟨fun call hcall => ?_, fun r hr d hd => ?_⟩
  · rcases List.mem_append.mp hcall with hcall | hcall
    · rw [List.eq_of_mem_replicate hcall]
      decide
    · rw [List.mem_singleton.mp hcall]
      decide
  · interval_cases r <;> interval_cases d
    · exact .refl 0
    · exact (Reachable.refl 0).snoc hforth
    · exact (Reachable.refl 1).snoc hback
    · exact .refl 1

theorem outOf_manyLinks (k : ℕ) : (NocBase.outOf (manyLinks k) 0).length = k := by
  unfold NocBase.outOf manyLinks
  rw [List.length_map, List.filter_append, List.filter_replicate_of_pos (by decide), List.filter_cons_of_neg (by decide)]
  simp

/-- Over `2 ^ 32` links of a router the loop counter comes round again and again. -/
theorem not_default_routes_shortest : ¬ ∀ (calls : List (ℕ × ℕ)) (count : ℕ), StronglyConnected calls count →
    RoutesShortest (.sorted Prod.snd) calls [] count := by
  intro h
  have hstrong := @stronglyConnected_manyLinks portIds (by decide)
  rcases countable_of_routesShortest hstrong (h _ _ hstrong) with hone | hcount
  · exact absurd hone (by decide)
  · have hlinks := hcount.links 0
    rw [outOf_manyLinks] at hlinks
    exact Nat.lt_irrefl _ hlinks

/-- The default routing changes the tables only, and keeps the entries that are there. -/
theorem keeps_build {rounds : ℕ} {n' : NocBase} (hrun : n.buildDefaultRoutingBidirectional q rounds = .ok n') :
    (∃ tables, n' = { n.withTables tables with nocGraph := fun _ => [], graphSize := 0 }) ∧
      ∀ key outPort, n.routingTables key = some outPort → n'.routingTables key = some outPort := by
  have hpair : ∀ t : NocBase, ∀ pair t', NocBase.routePair q rounds t pair = .ok t' → (∃ tables, t' = t.withTables tables) ∧
      ∀ key outPort, t.routingTables key = some outPort → t'.routingTables key = some outPort := by
    intro t pair t' hrun
    unfold NocBase.routePair at hrun
    split at hrun
    · cases hrun
      exact ⟨⟨t.routingTables, rfl⟩, fun _ _ => id⟩
    · split at hrun
      · cases hrun
        exact ⟨⟨t.routingTables, rfl⟩, fun _ _ => id⟩
      · cases hpath : dijkstra q t.graph rounds pair.1 pair.2 with
        | error e =>
          rw [hpath] at hrun
          cases hrun
        | ok path =>
          rw [hpath] at hrun
          obtain rfl := Except.ok.inj hrun
          have hchain : path.reverse.IsChain fun _ _ => True :=
            List.isChain_reverse.mpr (isChain_of_tail fun _ _ => trivial)
          have hadded := NocBase.addPath_added (n := t) pair.2 hchain
          obtain ⟨tables, htables⟩ := hadded.rest
          exact ⟨⟨tables, htables⟩, hadded.keeps⟩
  have hfold := foldlM_spec (f := NocBase.routePair q rounds)
    (P := fun t => (∃ tables, t = n.withTables tables) ∧
      ∀ key outPort, n.routingTables key = some outPort → t.routingTables key = some outPort)
    (Q := fun _ => True) (l := n.slowRouterIDs.product n.slowRouterIDs)
    (fun t ht pair _ t' hrun => by
      obtain ⟨⟨tables, rfl⟩, hbefore⟩ := ht
      obtain ⟨⟨tables', rfl⟩, hkeeps⟩ := hpair _ pair t' hrun
      exact ⟨⟨tables', rfl⟩, fun key p hp => hkeeps key p (hbefore key p hp)⟩)
    (fun _ _ _ _ _ _ => trivial) (s := n) ⟨⟨n.routingTables, rfl⟩, fun _ _ => id⟩
  unfold NocBase.buildDefaultRoutingBidirectional at hrun
  cases hpairs : (n.slowRouterIDs.product n.slowRouterIDs).foldlM (NocBase.routePair q rounds) n with
  | error e =>
    rw [hpairs] at hrun
    cases hrun
  | ok t =>
    rw [hpairs] at hrun
    obtain rfl := Except.ok.inj hrun
    obtain ⟨⟨tables, rfl⟩, hkeeps⟩ := hfold.1 t hpairs
    exact ⟨⟨tables, rfl⟩, hkeeps⟩

/-- Hops along tables and links follow links that were added. -/
theorem walk_of_visits {dst cur : ℕ} {visited : List ℕ}
    (hlink : ∀ r d port inPort, n.links (r, port) = some (d, inPort) → HasLink calls r d)
    (h : Visits (fun cur next => n.Leads cur dst next) dst cur visited) :
    Walk (HasLink calls) cur visited.length dst := by
  induction h with
  | here => exact .stay _
  | hop _ hstep _ ih =>
    obtain ⟨outPort, inPort, -, hlinks⟩ := hstep
    exact .step (hlink _ _ _ _ hlinks) ih

/-- The entry from which a shortest route starts leads closer. -/
theorem ShortestRoute.leadsCloser {src dst outPort : ℕ}
    (hlink : ∀ r d port inPort, n.links (r, port) = some (d, inPort) → HasLink calls r d)
    (h : ShortestRoute calls n src dst) (hne : src ≠ dst) (hentry : n.routingTables (src, dst) = some outPort) :
    n.LeadsCloser calls src dst outPort := by
  obtain ⟨visited, hvisits, hleast, -⟩ := h
  cases hvisits with
  | here => exact absurd rfl hne
  | @hop _ next rest _ hstep hrest =>
    obtain ⟨port, inPort, hport, hlinks⟩ := hstep
    obtain rfl := Option.some.inj (hentry.symm.trans hport)
    have hedge := hlink _ _ _ _ hlinks
    have hwalk := walk_of_visits hlink hrest
    have hdistance := (isLeast_distance ⟨_, hleast.1⟩).unique hleast
    have hshort := distance_le hwalk
    have hlong := distance_le (Walk.step hedge (distance_walk ⟨_, hwalk⟩))
    rw [List.length_cons] at hdistance
    exact ⟨next, inPort, hlinks, hedge, by omega⟩

/-- With entries made before, the routes are shortest exactly if each of these entries leads one hop nearer to its
target. -/
theorem manual_routes_shortest_iff (q : PriorityQueue (ℕ × ℕ) Prod.snd) (h : StronglyConnected calls count)
    (hcount : Countable calls count) (hnear : Near calls count) (manual : List NocBase.RoutingCall) :
    RoutesShortest q calls manual count ↔ (NocBase.build calls manual).AllCloser calls count := by
  refine ⟨fun hroutes r hr d hd hne outPort hentry => ?_, routesShortest_of_closer q hcount h hnear⟩
  have hn := NocBase.build_wired calls manual
  obtain ⟨enough, henough⟩ := hroutes
  obtain ⟨net, hrun, hshortest⟩ := henough enough (Nat.le_refl _)
  obtain ⟨⟨tables, htables⟩, hkeeps⟩ := keeps_build hrun
  have hlinks : net.links = (NocBase.build calls manual).links := by rw [htables]; rfl
  have hlink : ∀ r d port inPort, net.links (r, port) = some (d, inPort) → HasLink calls r d := by
    intro r d port inPort hport
    rw [hlinks] at hport
    exact hn.hasLink (Nat.le_of_lt (hcount.links r)) hport
  obtain ⟨next, inPort, hnext, hcloser⟩ := (hshortest r hr d hd).leadsCloser hlink hne (hkeeps _ _ hentry)
  exact ⟨next, inPort, hlinks ▸ hnext, hcloser⟩

end Strong

/-- The circle with an entry from router 0 to router 2 through its only port. -/
theorem manual_routes_shortest_circle :
    RoutesShortest (.sorted Prod.snd) circleLinks [⟨0, 2, 0⟩] 3 ↔
      (NocBase.build circleLinks [⟨0, 2, 0⟩]).AllCloser circleLinks 3 := by
  have hnear : Near circleLinks 3 := fun r hr d hd =>
    (distance_le (walk_between_circleLinks hr hd)).trans ((Nat.mod_lt _ (by decide)).le.trans (by decide))
  have hcount : Countable circleLinks 3 :=
    ⟨by decide, fun r => (NocBase.outOf_length_le circleLinks r).trans_lt (by decide)⟩
  exact manual_routes_shortest_iff _ stronglyConnected_circleLinks hcount hnear _

end Vpsim.Connect
