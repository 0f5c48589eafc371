import Vpsim.Connect.CycleAccurate
import Vpsim.Connect.DefaultRouting
import Mathlib.Data.List.Dedup
import Mathlib.Data.List.Sort

/-!
# The endpoints of a network on chip

`bind` takes the next output and input port of a router for an endpoint, and the output port names the endpoint as a
target. At the end of elaboration `C_NoCCycleAccurate` makes the routers: a target of the router itself has its own
port, every other the port that the tables say. The tables may be made before or after, by hand or by default.
-/

namespace Vpsim.Connect

open Vpsim.Lib

/-- An endpoint with its ports at its router. -/
structure Endpoint where
  router : ℕ
  inPort : ℕ
  outPort : ℕ
  deriving DecidableEq

/-- `C_NoCBase` with its endpoints. -/
structure BoundNoc where
  base : NocBase
  endpoints : List Endpoint

namespace BoundNoc

/-- The ports after a `bind`. -/
def takePorts (n : NocBase) (router : ℕ) : NocBase :=
  { n with
    routerOutputPortsCount := Function.update n.routerOutputPortsCount router
      ((n.routerOutputPortsCount router + 1) % portIds)
    routerInputPortsCount := Function.update n.routerInputPortsCount router
      ((n.routerInputPortsCount router + 1) % portIds) }

/-- `bind` and `BindBiDir`. -/
def bind (b : BoundNoc) (router : ℕ) : BoundNoc where
  base := takePorts b.base router
  endpoints := b.endpoints ++ [⟨router, b.base.routerInputPortsCount router, b.base.routerOutputPortsCount router⟩]

/-- The endpoints of these routers, one after the other. -/
def bindAll (n : NocBase) (routers : List ℕ) : BoundNoc := routers.foldl bind ⟨n, []⟩

/-- `ValidTargets`. -/
def validTargets (b : BoundNoc) : List (ℕ × ℕ) := b.endpoints.map fun e => (e.router, e.outPort)

/-- The port for a target, by `AddOutMapping`. -/
def outMapping (b : BoundNoc) (router : ℕ) (target : ℕ × ℕ) : ℕ :=
  if target.1 = router then target.2 else (b.base.routingTables (router, target.1)).getD 0

/-- The output ports of a router, in the order of their numbers. -/
def outputPorts (b : BoundNoc) (router : ℕ) : List ℕ :=
  (((b.endpoints.filter fun e => e.router = router).map Endpoint.outPort ++
    b.validTargets.map (b.outMapping router)).dedup).insertionSort (· ≤ ·)

theorem mem_outputPorts {b : BoundNoc} {router : ℕ} {target : ℕ × ℕ} (h : target ∈ b.validTargets) :
    b.outMapping router target ∈ b.outputPorts router := by
  unfold outputPorts
  rw [List.mem_insertionSort, List.mem_dedup, List.mem_append]
  exact .inr (List.mem_map_of_mem h)

theorem nodup_outputPorts (b : BoundNoc) (router : ℕ) : (b.outputPorts router).Nodup :=
  (List.perm_insertionSort _ _).nodup_iff.mpr (List.nodup_dedup _)

/-- The router that the end of elaboration makes. Its inputs are the links and the endpoints. -/
def routerConfig (b : BoundNoc) (router : ℕ) : RouterConfig {target // target ∈ b.validTargets} where
  nbIn := b.base.routerInputPortsCount router % portIds
  outputPorts := b.outputPorts router
  targetToOutPort target := b.outMapping router target.1
  nbIn_lt := Nat.mod_lt _ (Nat.two_pow_pos 32)
  nodup := b.nodup_outputPorts router
  mapped target := mem_outputPorts target.2

/-- Each port belongs to one link or endpoint, and counts are below a number. -/
structure Numbered (total : ℕ) (b : BoundNoc) : Prop where
  inCount : ∀ r, b.base.routerInputPortsCount r ≤ total
  outCount : ∀ r, b.base.routerOutputPortsCount r ≤ total
  links : ∀ key dst, b.base.links key = some dst →
    key.2 < b.base.routerOutputPortsCount key.1 ∧ dst.2 < b.base.routerInputPortsCount dst.1
  injective : ∀ key key' dst, b.base.links key = some dst → b.base.links key' = some dst → key = key'
  endpoints : ∀ e ∈ b.endpoints,
    e.inPort < b.base.routerInputPortsCount e.router ∧ e.outPort < b.base.routerOutputPortsCount e.router
  unlinked : ∀ e ∈ b.endpoints,
    b.base.links (e.router, e.outPort) = none ∧ ∀ key, b.base.links key ≠ some (e.router, e.inPort)

variable {total : ℕ} {b : BoundNoc} {n : NocBase}

/-- `bind` takes ports that nothing has. -/
theorem Numbered.bind (h : b.Numbered total) (htotal : total + 1 < portIds) (router : ℕ) :
    (b.bind router).Numbered (total + 1) := by
  have hin := h.inCount router
  have hout := h.outCount router
  have hinNext : (b.base.routerInputPortsCount router + 1) % portIds = b.base.routerInputPortsCount router + 1 :=
    Nat.mod_eq_of_lt (by omega)
  have houtNext : (b.base.routerOutputPortsCount router + 1) % portIds = b.base.routerOutputPortsCount router + 1 :=
    Nat.mod_eq_of_lt (by omega)
  have hins (r : ℕ) : (b.bind router).base.routerInputPortsCount r =
      if r = router then b.base.routerInputPortsCount router + 1 else b.base.routerInputPortsCount r := by
    change Function.update b.base.routerInputPortsCount router _ r = _
    rw [hinNext, Function.update_apply]
  have houts (r : ℕ) : (b.bind router).base.routerOutputPortsCount r =
      if r = router then b.base.routerOutputPortsCount router + 1 else b.base.routerOutputPortsCount r := by
    change Function.update b.base.routerOutputPortsCount router _ r = _
    rw [houtNext, Function.update_apply]
  have hlater (r : ℕ) : b.base.routerInputPortsCount r ≤ (b.bind router).base.routerInputPortsCount r ∧
      b.base.routerOutputPortsCount r ≤ (b.bind router).base.routerOutputPortsCount r := by
    rw [hins, houts]
    constructor <;> split_ifs with hr
    · rw [hr]
      exact Nat.le_succ _
    · exact le_rfl
    · rw [hr]
      exact Nat.le_succ _
    · exact le_rfl
  have hmem {e : Endpoint} (he : e ∈ (b.bind router).endpoints) : e ∈ b.endpoints ∨
      e = ⟨router, b.base.routerInputPortsCount router, b.base.routerOutputPortsCount router⟩ := by
    rcases List.mem_append.mp he with he | he
    · exact .inl he
    · exact .inr (List.mem_singleton.mp he)
  refine ⟨fun r => ?_, fun r => ?_, fun key dst hlink => ?_, h.injective, fun e he => ?_, fun e he => ?_⟩
  · have hr := h.inCount r
    rw [hins]
    split_ifs <;> omega
  · have hr := h.outCount r
    rw [houts]
    split_ifs <;> omega
  · obtain ⟨hkey, hdst⟩ := h.links key dst hlink
    exact ⟨hkey.trans_le (hlater _).2, hdst.trans_le (hlater _).1⟩
  · rcases hmem he with he | rfl
    · obtain ⟨hin', hout'⟩ := h.endpoints e he
      exact ⟨hin'.trans_le (hlater _).1, hout'.trans_le (hlater _).2⟩
    · rw [hins, houts, if_pos rfl, if_pos rfl]
      exact ⟨Nat.lt_succ_self _, Nat.lt_succ_self _⟩
  · rcases hmem he with he | rfl
    · exact h.unlinked e he
    · constructor
      · change b.base.links (router, b.base.routerOutputPortsCount router) = none
        cases hlink : b.base.links (router, b.base.routerOutputPortsCount router) with
        | none => rfl
        | some dst => exact absurd (h.links _ dst hlink).1 (Nat.lt_irrefl _)
      · exact fun key hlink => absurd (h.links key _ hlink).2 (Nat.lt_irrefl _)

/-- A network without endpoints. -/
structure Links (total : ℕ) (n : NocBase) : Prop extends Numbered total ⟨n, []⟩ where
  routers : ∀ r, r ∉ n.slowRouterIDs → n.routerInputPortsCount r = 0 ∧ n.routerOutputPortsCount r = 0

theorem empty_links : Links 0 NocBase.empty where
  inCount _ := le_rfl
  outCount _ := le_rfl
  links := nofun
  injective := nofun
  endpoints := nofun
  unlinked := nofun
  routers _ _ := ⟨rfl, rfl⟩

/-- A router that is added has no ports yet. -/
theorem Links.addRouter (h : Links total n) (router : ℕ) : Links total (n.addRouter router) := by
  unfold NocBase.addRouter
  split
  · exact h
  · rename_i hnew
    obtain ⟨hin, hout⟩ := h.routers router hnew
    have hins : Function.update n.routerInputPortsCount router 0 = n.routerInputPortsCount := by
      rw [← hin, Function.update_eq_self]
    have houts : Function.update n.routerOutputPortsCount router 0 = n.routerOutputPortsCount := by
      rw [← hout, Function.update_eq_self]
    rw [hins, houts]
    refine ⟨⟨h.inCount, h.outCount, h.links, h.injective, nofun, nofun⟩, fun r hr => h.routers r fun hold => hr ?_⟩
    exact (List.mem_orderedInsert _).mpr (.inr hold)

/-- A link takes ports that nothing has. -/
theorem Links.connect (h : Links total n) (htotal : total + 1 < portIds) {src dst : ℕ} (hsrc : src ∈ n.slowRouterIDs)
    (hdst : dst ∈ n.slowRouterIDs) : Links (total + 1) (n.connect src dst) := by
  have hin := h.inCount dst
  have hout := h.outCount src
  have hins (r : ℕ) : (n.connect src dst).routerInputPortsCount r =
      if r = dst then n.routerInputPortsCount dst + 1 else n.routerInputPortsCount r := by
    change Function.update n.routerInputPortsCount dst _ r = _
    rw [Nat.mod_eq_of_lt (lt_of_le_of_lt (Nat.succ_le_succ hin) htotal), Function.update_apply]
  have houts (r : ℕ) : (n.connect src dst).routerOutputPortsCount r =
      if r = src then n.routerOutputPortsCount src + 1 else n.routerOutputPortsCount r := by
    change Function.update n.routerOutputPortsCount src _ r = _
    rw [Nat.mod_eq_of_lt (lt_of_le_of_lt (Nat.succ_le_succ hout) htotal), Function.update_apply]
  have hlinks (key : ℕ × ℕ) : (n.connect src dst).links key =
      if key = (src, n.routerOutputPortsCount src) then some (dst, n.routerInputPortsCount dst) else n.links key :=
    Function.update_apply ..
  refine ⟨⟨fun r => ?_, fun r => ?_, fun key d hlink => ?_, fun key key' d hlink hlink' => ?_, nofun, nofun⟩,
    fun r hr => ?_⟩
  · have hr := h.inCount r
    change (n.connect src dst).routerInputPortsCount r ≤ total + 1
    rw [hins]
    dsimp only at hin hr
    split_ifs <;> omega
  · have hr := h.outCount r
    change (n.connect src dst).routerOutputPortsCount r ≤ total + 1
    rw [houts]
    dsimp only at hout hr
    split_ifs <;> omega
  · change key.2 < (n.connect src dst).routerOutputPortsCount key.1 ∧ d.2 < (n.connect src dst).routerInputPortsCount d.1
    change (n.connect src dst).links key = some d at hlink
    rw [hlinks] at hlink
    rw [hins, houts]
    split_ifs at hlink with hkey
    · obtain rfl := Option.some.inj hlink
      rw [hkey, if_pos rfl, if_pos rfl]
      exact ⟨Nat.lt_succ_self _, Nat.lt_succ_self _⟩
    · obtain ⟨hk, hd⟩ := h.links key d hlink
      dsimp only at hk hd
      constructor <;> split_ifs with hr
      · rw [hr] at hk
        exact hk.trans (Nat.lt_succ_self _)
      · exact hk
      · rw [hr] at hd
        exact hd.trans (Nat.lt_succ_self _)
      · exact hd
  · change (n.connect src dst).links key = some d at hlink
    change (n.connect src dst).links key' = some d at hlink'
    rw [hlinks] at hlink hlink'
    have hfresh : ∀ k, n.links k ≠ some (dst, n.routerInputPortsCount dst) :=
      fun k hk => absurd (h.links k _ hk).2 (Nat.lt_irrefl _)
    split_ifs at hlink hlink' with hkey hkey' hkey'
    · rw [hkey, hkey']
    · exact absurd (hlink'.trans hlink.symm) (hfresh key')
    · exact absurd (hlink.trans hlink'.symm) (hfresh key)
    · exact h.injective key key' d hlink hlink'
  · change r ∉ n.slowRouterIDs at hr
    have hrdst : r ≠ dst := fun heq => hr (heq ▸ hdst)
    have hrsrc : r ≠ src := fun heq => hr (heq ▸ hsrc)
    rw [hins, houts, if_neg hrdst, if_neg hrsrc]
    exact h.routers r hr

theorem Links.addLinks (h : Links total n) {calls : List (ℕ × ℕ)} (htotal : total + calls.length < portIds) :
    Links (total + calls.length) (calls.foldl NocBase.addLink n) := by
  induction calls generalizing total n with
  | nil => exact h
  | cons call calls ih =>
    rw [List.length_cons] at htotal ⊢
    have hfirst : Links (total + 1) (n.addLink call) :=
      ((h.addRouter call.1).addRouter call.2).connect (by omega)
        (NocBase.mem_addRouter.mpr (.inr (NocBase.mem_addRouter.mpr (.inl rfl)))) (NocBase.mem_addRouter.mpr (.inl rfl))
    rw [Nat.add_comm calls.length, ← Nat.add_assoc] at htotal ⊢
    exact ih hfirst htotal

theorem Numbered.binds (h : b.Numbered total) {routers : List ℕ} (htotal : total + routers.length < portIds) :
    (routers.foldl BoundNoc.bind b).Numbered (total + routers.length) := by
  induction routers generalizing total b with
  | nil => exact h
  | cons router routers ih =>
    rw [List.length_cons] at htotal ⊢
    have hfirst := h.bind (by omega) router
    rw [Nat.add_comm routers.length, ← Nat.add_assoc] at htotal ⊢
    exact ih hfirst htotal

/-! ## The network -/

theorem Numbered.inPort_lt (h : b.Numbered total) (htotal : total < portIds) {r i : ℕ}
    (hi : i < b.base.routerInputPortsCount r) : i < (b.routerConfig r).nbIn := by
  have hmod : b.base.routerInputPortsCount r % portIds = b.base.routerInputPortsCount r :=
    Nat.mod_eq_of_lt ((h.inCount r).trans_lt htotal)
  change i < b.base.routerInputPortsCount r % portIds
  rw [hmod]
  exact hi

/-- The end of elaboration binds the fifo of each link to the output port of its source, so there must be one: some
target is mapped to it. Without one `OutputPorts` gets a null pointer, which is dereferenced. -/
def Elaborates (b : BoundNoc) : Prop := ∀ key dst, b.base.links key = some dst → key.2 ∈ b.outputPorts key.1

/-- The network that the end of elaboration makes. -/
def network (b : BoundNoc) (h : b.Numbered total) (htotal : total < portIds) (hports : b.Elaborates) :
    Network {target // target ∈ b.validTargets} where
  routers := b.routerConfig
  links := b.base.links
  bound := hports
  inPort_lt key dst hlink := h.inPort_lt htotal (h.links key dst hlink).2
  injective := h.injective

/-- The target that an endpoint is. -/
def target (b : BoundNoc) (e : Endpoint) (he : e ∈ b.endpoints) : {target // target ∈ b.validTargets} :=
  ⟨(e.router, e.outPort), List.mem_map_of_mem he⟩

/-- Where the tables lead from a router to that of an endpoint, so do the fifos. -/
theorem exists_route (h : b.Numbered total) (htotal : total < portIds) (helaborates : b.Elaborates) {e : Endpoint}
    (he : e ∈ b.endpoints) {r : ℕ} {visited : List ℕ} (hway : Visits (fun cur next => b.base.Leads cur e.router next) e.router r visited) {i : ℕ}
    (hi : i < b.base.routerInputPortsCount r) :
    ∃ ports : List (ℕ × ℕ), ports.map Prod.fst = visited ∧
      (b.network h htotal helaborates).Route (b.target e he) (e.router, e.outPort) (r, i) ports := by
  induction hway generalizing i with
  | here =>
    have hexit : b.outMapping e.router (e.router, e.outPort) = e.outPort := if_pos rfl
    exact ⟨[], rfl, .last (h.inPort_lt htotal hi) (Prod.ext rfl hexit.symm) (h.unlinked e he).1⟩
  | @hop cur next rest hne hstep hrest ih =>
    obtain ⟨outPort, inPort, htable, hlink⟩ := hstep
    obtain ⟨ports, hports, hroute⟩ := ih (h.links _ _ hlink).2
    have hout : b.outMapping cur (e.router, e.outPort) = outPort := by
      unfold outMapping
      rw [if_neg hne.symm, htable, Option.getD_some]
    have hlinked : (b.network h htotal helaborates).links (cur, b.outMapping cur (e.router, e.outPort)) = some (next, inPort) := by
      rw [hout]
      exact hlink
    exact ⟨(next, inPort) :: ports, by rw [List.map_cons, hports], .hop (h.inPort_lt htotal hi) hlinked hroute⟩

/-- The flits of a kind from one endpoint to another are delivered in order, where endpoints inject at their own ports
and the others do not send flits of this kind there. -/
def DeliversTo (b : BoundNoc) (h : b.Numbered total) (htotal : total < portIds) (helaborates : b.Elaborates)
    (a e : Endpoint) (he : e ∈ b.endpoints) (ports : List (ℕ × ℕ)) : Prop :=
  ∀ (α : Type) (kind : α → Bool) (acts : List (NetAction {target // target ∈ b.validTargets} α)),
    (∀ r i f, .inject r i f ∈ acts → ∃ x ∈ b.endpoints, (x.router, x.inPort) = (r, i)) →
    (∀ r i f, .inject r i f ∈ acts → f.targetId = b.target e he → kind f.payload = true →
      (r, i) = (a.router, a.inPort)) →
    (b.network h htotal helaborates).Delivers (b.target e he) kind acts (e.router, e.outPort) (a.router, a.inPort) ports

/-- Where the tables lead from one endpoint to another, flits are delivered in order. -/
theorem endpoints_in_order (h : b.Numbered total) (htotal : total < portIds) (helaborates : b.Elaborates)
    {a e : Endpoint} (ha : a ∈ b.endpoints) (he : e ∈ b.endpoints) {visited : List ℕ}
    (hway : Visits (fun cur next => b.base.Leads cur e.router next) e.router a.router visited) :
    ∃ ports : List (ℕ × ℕ), ports.map Prod.fst = visited ∧ b.DeliversTo h htotal helaborates a e he ports := by
  obtain ⟨ports, hports, hroute⟩ := exists_route h htotal helaborates he hway (h.endpoints a ha).1
  refine ⟨ports, hports, fun α kind acts hinject hsource => ?_⟩
  refine hroute.delivers (h.unlinked a ha).2 (fun r i f hf => ?_) hsource
  obtain ⟨x, hx, hport⟩ := hinject r i f hf
  rw [← hport]
  exact (h.unlinked x hx).2

/-! ## Default routes -/

/-- The ports do not depend on the tables. -/
theorem Links.withTables (h : Links total n) (tables : ℕ × ℕ → Option ℕ) (graph : ℕ → List ℕ) (size : ℕ) :
    Links total { n.withTables tables with nocGraph := graph, graphSize := size } :=
  ⟨⟨h.inCount, h.outCount, h.links, h.injective, nofun, nofun⟩, h.routers⟩

/-- Endpoints change neither links nor tables. -/
theorem binds_base (b : BoundNoc) (routers : List ℕ) :
    (routers.foldl bind b).base.links = b.base.links ∧ (routers.foldl bind b).base.routingTables = b.base.routingTables := by
  induction routers generalizing b with
  | nil => exact ⟨rfl, rfl⟩
  | cons router routers ih => exact ih (b.bind router)

/-- Endpoints are at the routers that were given. -/
theorem mem_binds {b : BoundNoc} {routers : List ℕ} {e : Endpoint} (he : e ∈ (routers.foldl bind b).endpoints) :
    e ∈ b.endpoints ∨ e.router ∈ routers := by
  induction routers generalizing b with
  | nil => exact .inl he
  | cons router routers ih =>
    rcases ih he with he | he
    · rcases List.mem_append.mp he with he | he
      · exact .inl he
      · rw [List.mem_singleton.mp he]
        exact .inr List.mem_cons_self
    · exact .inr (List.mem_cons_of_mem router he)

/-- Each router that was given has an endpoint. -/
theorem exists_endpoint {b : BoundNoc} {routers : List ℕ} {router : ℕ}
    (h : router ∈ routers ∨ ∃ e ∈ b.endpoints, e.router = router) :
    ∃ e ∈ (routers.foldl bind b).endpoints, e.router = router := by
  induction routers generalizing b with
  | nil => exact h.resolve_left List.not_mem_nil
  | cons first routers ih =>
    apply ih
    rcases h with hmem | ⟨e, he, hrouter⟩
    · rcases List.mem_cons.mp hmem with rfl | hmem
      · exact .inr ⟨_, List.mem_append_right _ (List.mem_singleton_self _), rfl⟩
      · exact .inl hmem
    · exact .inr ⟨e, List.mem_append_left _ he, hrouter⟩

/-- Links that connect different routers, no two of them the same ones, to routers with an endpoint. -/
structure Simple (calls : List (ℕ × ℕ)) (routers : List ℕ) : Prop where
  nodup : calls.Nodup
  ne : ∀ call ∈ calls, call.1 ≠ call.2
  routers : ∀ call ∈ calls, call.2 ∈ routers

/-- A router that leads to each neighbour along the link to it binds this link. -/
theorem elaborates_of_simple {calls : List (ℕ × ℕ)} {routers : List ℕ} (h : Simple calls routers) {built : NocBase}
    (hlinked : built.Linked calls) (hsame : n.links = built.links)
    (hfew : ∀ r, (NocBase.outOf calls r).length ≤ portIds) (hleads : ∀ call ∈ calls, n.Leads call.1 call.2 call.2) :
    (bindAll n routers).Elaborates := by
  intro key dst hlink
  obtain ⟨hlinks, htables⟩ := binds_base ⟨n, []⟩ routers
  have hlink' : built.links key = some dst := by
    rw [← hsame]
    exact (congrFun hlinks key).symm.trans hlink
  have hcall : (key.1, dst.1) ∈ calls := by
    have hfirst := hlinked.links key.1 key.2 (hfew key.1)
    rw [hlink'] at hfirst
    exact NocBase.mem_outOf.mp (List.mem_of_getElem? hfirst.symm)
  obtain ⟨outPort, inPort, htable, hnext⟩ := hleads _ hcall
  rw [hsame] at hnext
  have hport : outPort = key.2 := hlinked.port_eq h.nodup (hfew key.1) hnext hlink'
  obtain ⟨e, he, hrouter⟩ := exists_endpoint (b := ⟨n, []⟩) (.inl (h.routers _ hcall))
  have htarget : (e.router, e.outPort) ∈ (bindAll n routers).validTargets := List.mem_map_of_mem he
  have hmapped : (bindAll n routers).outMapping key.1 (e.router, e.outPort) = key.2 := by
    unfold outMapping
    dsimp only
    rw [hrouter, if_neg (h.ne _ hcall).symm]
    change ((routers.foldl bind ⟨n, []⟩).base.routingTables (key.1, dst.1)).getD 0 = key.2
    rw [htables, htable]
    exact hport
  rw [← hmapped]
  exact mem_outputPorts htarget

/-- A shortest way to a neighbour is the link to it. -/
theorem leads_of_shortestRoute {calls : List (ℕ × ℕ)} {r d : ℕ} (h : ShortestRoute calls n r d)
    (hlink : HasLink calls r d) (hne : r ≠ d) : n.Leads r d d := by
  obtain ⟨visited, hvisits, hleast, -⟩ := h
  have hle : visited.length ≤ 1 := hleast.2 (Walk.step hlink (.stay d))
  cases hvisits with
  | here => exact absurd rfl hne
  | hop _ hstep hrest =>
    cases hrest with
    | here => exact hstep
    | hop _ _ _ =>
      rw [List.length_cons, List.length_cons] at hle
      omega

/-- After the default routing of a strongly connected network, the flits of a kind from each endpoint to each other get
there in order, along as few links as possible, if the end of elaboration has a port for each link. It has, for links
that connect different routers, no two of them the same ones, to routers with an endpoint. -/
theorem default_network_in_order (q : PriorityQueue (ℕ × ℕ) Prod.snd) {calls : List (ℕ × ℕ)} {count : ℕ}
    (h : StronglyConnected calls count) (hcount : Countable calls count) (hnear : Near calls count) {routers : List ℕ}
    (hrouters : ∀ r ∈ routers, r < count) (htotal : calls.length + routers.length < portIds) :
    ∃ enough, ∀ rounds, enough ≤ rounds → ∃ net,
      (NocBase.build calls []).buildDefaultRoutingBidirectional q rounds = .ok net ∧
      ∃ hnet : (bindAll net routers).Numbered (calls.length + routers.length),
        (Simple calls routers → (bindAll net routers).Elaborates) ∧
        ∀ (helaborates : (bindAll net routers).Elaborates), ∀ a ∈ (bindAll net routers).endpoints,
          ∀ (e : Endpoint) (he : e ∈ (bindAll net routers).endpoints),
            ∃ ports : List (ℕ × ℕ), IsLeast {k | Walk (HasLink calls) a.router k e.router} ports.length ∧
              (bindAll net routers).DeliversTo hnet htotal helaborates a e he ports := by
  obtain ⟨enough, henough⟩ := routesShortest_of_closer q hcount h hnear (NocBase.build_closer calls count)
  refine ⟨enough, fun rounds hrounds => ?_⟩
  obtain ⟨net, hrun, hroutes⟩ := henough rounds hrounds
  obtain ⟨⟨tables, htables⟩, -⟩ := keeps_build hrun
  have hlinks : Links calls.length net := by
    have hbuilt : Links (0 + calls.length) (NocBase.build calls []) := empty_links.addLinks (by omega)
    rw [Nat.zero_add] at hbuilt
    rw [htables]
    exact hbuilt.withTables tables _ _
  have hnet : (bindAll net routers).Numbered (calls.length + routers.length) := hlinks.toNumbered.binds htotal
  refine ⟨net, hrun, hnet, fun hsimple => ?_, fun helaborates a ha e he => ?_⟩
  · have hsame : net.links = (NocBase.build calls []).links := by
      rw [htables]
      rfl
    have hfew : ∀ r, (NocBase.outOf calls r).length ≤ portIds := fun r => Nat.le_of_lt (hcount.links r)
    refine elaborates_of_simple hsimple (NocBase.build_wired calls []).toLinked hsame hfew fun call hcall => ?_
    obtain ⟨hsrc, hdst⟩ := h.inside call hcall
    exact leads_of_shortestRoute (hroutes _ hsrc _ hdst) hcall (hsimple.ne call hcall)
  · have hbelow {x : Endpoint} (hx : x ∈ (bindAll net routers).endpoints) : x.router < count :=
      hrouters _ ((mem_binds hx).resolve_left nofun)
    obtain ⟨visited, hvisits, hleast, -⟩ := hroutes a.router (hbelow ha) e.router (hbelow he)
    obtain ⟨hlinked, htable⟩ := binds_base ⟨net, []⟩ routers
    have hway : Visits (fun cur next => (bindAll net routers).base.Leads cur e.router next) e.router a.router
        visited := by
      refine hvisits.mono fun cur next hleads => ?_
      obtain ⟨outPort, inPort, hentry, hlink⟩ := hleads
      exact ⟨outPort, inPort, (congrFun htable _).trans hentry, (congrFun hlinked _).trans hlink⟩
    obtain ⟨ports, hports, hdelivers⟩ := endpoints_in_order hnet htotal helaborates ha he hway
    refine ⟨ports, ?_, hdelivers⟩
    rw [← hports, List.length_map] at hleast
    exact hleast

theorem circleLinks_fits : circleLinks.length + [0, 1, 2].length < portIds := by decide

theorem circleLinks_simple : Simple circleLinks [0, 1, 2] := ⟨by decide, by decide, by decide⟩

/-- On the circle of three routers with an endpoint at each, flits between endpoints stay in order. -/
theorem default_network_in_order_circle : ∃ enough, ∀ rounds, enough ≤ rounds → ∃ net,
    (NocBase.build circleLinks []).buildDefaultRoutingBidirectional (.sorted Prod.snd) rounds = .ok net ∧
    ∃ hnet : (bindAll net [0, 1, 2]).Numbered (circleLinks.length + [0, 1, 2].length),
      ∃ helaborates : (bindAll net [0, 1, 2]).Elaborates, ∀ a ∈ (bindAll net [0, 1, 2]).endpoints,
        ∀ (e : Endpoint) (he : e ∈ (bindAll net [0, 1, 2]).endpoints),
          ∃ ports : List (ℕ × ℕ), IsLeast {k | Walk (HasLink circleLinks) a.router k e.router} ports.length ∧
            (bindAll net [0, 1, 2]).DeliversTo hnet circleLinks_fits helaborates a e he ports := by
  have hnear : Near circleLinks 3 := fun r hr d hd =>
    (distance_le (walk_between_circleLinks hr hd)).trans ((Nat.mod_lt _ (by decide)).le.trans (by decide))
  have hcount : Countable circleLinks 3 :=
    ⟨by decide, fun r => (NocBase.outOf_length_le circleLinks r).trans_lt (by decide)⟩
  obtain ⟨enough, henough⟩ :=
    default_network_in_order (.sorted Prod.snd) stronglyConnected_circleLinks hcount hnear (by decide) circleLinks_fits
  refine ⟨enough, fun rounds hrounds => ?_⟩
  obtain ⟨net, hrun, hnet, helaborates, hdelivers⟩ := henough rounds hrounds
  exact ⟨net, hrun, hnet, helaborates circleLinks_simple, hdelivers (helaborates circleLinks_simple)⟩

end BoundNoc

end Vpsim.Connect
