import Mathlib.Algebra.GroupWithZero.Nat
import Mathlib.Data.List.Sort
import Mathlib.Logic.Function.Basic

/-!
# The topology of a network on chip

`C_NoCBase` as far as it concerns routers, links and routing tables. A router's output ports are numbered in the order
in which its links are added, in 32 bits. The tables are read the way `C_NoCNoContention` reads them, where an entry
that is missing is inserted as zero; and the hops that the loop over `Next` makes are listed by `Visits`.
-/

namespace Vpsim.Connect

/-- Number of values of a `T_PortID` or a `T_RouterID`. -/
def portIds : ℕ := 2 ^ 32

/-- The routers, links and tables of `C_NoCBase`. A router without a table has an empty one. -/
structure NocBase where
  slowRouterIDs : List ℕ
  links : ℕ × ℕ → Option (ℕ × ℕ)
  routers2Port : ℕ × ℕ → Option ℕ
  routingTables : ℕ × ℕ → Option ℕ
  routerInputPortsCount : ℕ → ℕ
  routerOutputPortsCount : ℕ → ℕ
  nocGraph : ℕ → List ℕ
  graphSize : ℕ

namespace NocBase

/-- A network without routers. -/
def empty : NocBase := ⟨[], fun _ => none, fun _ => none, fun _ => none, fun _ => 0, fun _ => 0, fun _ => [], 0⟩

/-- `AddRouter`. -/
def addRouter (n : NocBase) (routerID : ℕ) : NocBase :=
  if routerID ∈ n.slowRouterIDs then n
  else
    { n with
      slowRouterIDs := n.slowRouterIDs.orderedInsert (· ≤ ·) routerID
      routerInputPortsCount := Function.update n.routerInputPortsCount routerID 0
      routerOutputPortsCount := Function.update n.routerOutputPortsCount routerID 0 }

/-- `AddLink` between two routers that exist. -/
def connect (n : NocBase) (src dst : ℕ) : NocBase :=
  let outPort := n.routerOutputPortsCount src
  let inPort := n.routerInputPortsCount dst
  { n with
    routerOutputPortsCount := Function.update n.routerOutputPortsCount src ((outPort + 1) % portIds)
    routerInputPortsCount := Function.update n.routerInputPortsCount dst ((inPort + 1) % portIds)
    links := Function.update n.links (src, outPort) (some (dst, inPort))
    routers2Port := Function.update n.routers2Port (src, dst) (some outPort)
    nocGraph := Function.update n.nocGraph src (n.nocGraph src ++ [dst])
    graphSize := max n.graphSize (src + 1) }

/-- `AddLink`. -/
def addLink (n : NocBase) (call : ℕ × ℕ) : NocBase :=
  ((n.addRouter call.1).addRouter call.2).connect call.1 call.2

/-- `AddRouting`: an entry that exists is kept, and the result is false. -/
def addRouting (n : NocBase) (router target outPort : ℕ) : Bool × NocBase :=
  if (n.routingTables (router, target)).isSome then (false, n)
  else (true, { n with routingTables := Function.update n.routingTables (router, target) (some outPort) })

/-- The router that `Next` holds: entries that are missing read as zero. -/
def nextRouter (n : NocBase) (router target : ℕ) : ℕ :=
  ((n.links (router, (n.routingTables (router, target)).getD 0)).getD (0, 0)).1

/-- The table of a router names a port from which a link leads to the next router. -/
def Leads (n : NocBase) (router target next : ℕ) : Prop :=
  ∃ outPort inPort, n.routingTables (router, target) = some outPort ∧ n.links (router, outPort) = some (next, inPort)

theorem Leads.nextRouter {n : NocBase} {router target next : ℕ} (h : n.Leads router target next) :
    n.nextRouter router target = next := by
  obtain ⟨outPort, inPort, htable, hlink⟩ := h
  unfold NocBase.nextRouter
  rw [htable, Option.getD_some, hlink]
  rfl

end NocBase

/-- The routers that the loop of `HopCount` visits after `cur` until it is at the target. -/
inductive Visits (step : ℕ → ℕ → Prop) (target : ℕ) : ℕ → List ℕ → Prop
  | here : Visits step target target []
  | hop {cur next : ℕ} {rest : List ℕ} (hne : cur ≠ target) (hstep : step cur next)
      (hrest : Visits step target next rest) : Visits step target cur (next :: rest)

theorem Visits.mono {step step' : ℕ → ℕ → Prop} (hstep : ∀ cur next, step cur next → step' cur next) {target cur : ℕ}
    {visited : List ℕ} (h : Visits step target cur visited) : Visits step' target cur visited := by
  induction h with
  | here => exact .here
  | hop hne hs _ ih => exact .hop hne (hstep _ _ hs) ih

/-- A visit that goes on goes to the next router. -/
theorem Visits.step_of_cons {step : ℕ → ℕ → Prop} {target cur next : ℕ} {rest : List ℕ}
    (h : Visits step target cur (next :: rest)) : cur ≠ target ∧ step cur next := by
  cases h with
  | hop hne hs _ => exact ⟨hne, hs⟩

namespace NocBase

/-- The destinations of the links out of a router, in the order of the calls. -/
def outOf (calls : List (ℕ × ℕ)) (router : ℕ) : List ℕ := (calls.filter fun call => call.1 = router).map Prod.snd

theorem outOf_append (calls : List (ℕ × ℕ)) (call : ℕ × ℕ) (router : ℕ) :
    outOf (calls ++ [call]) router = if call.1 = router then outOf calls router ++ [call.2] else outOf calls router := by
  unfold outOf
  rw [List.filter_append, List.map_append]
  by_cases h : call.1 = router
  · rw [if_pos h, List.filter_cons_of_pos (by simpa using h)]
    rfl
  · rw [if_neg h, List.filter_cons_of_neg (by simpa using h)]
    exact List.append_nil _

/-- What a network holds after calls of `AddLink`. -/
structure Linked (calls : List (ℕ × ℕ)) (n : NocBase) : Prop where
  routers : ∀ call ∈ calls, call.1 ∈ n.slowRouterIDs ∧ call.2 ∈ n.slowRouterIDs
  ports : ∀ router, n.routerOutputPortsCount router = (outOf calls router).length % portIds
  links : ∀ router port, (outOf calls router).length ≤ portIds →
    (n.links (router, port)).map Prod.fst = (outOf calls router)[port]?
  graph : ∀ router, n.nocGraph router = outOf calls router

theorem mem_addRouter {n : NocBase} {router r : ℕ} : r ∈ (n.addRouter router).slowRouterIDs ↔
    r = router ∨ r ∈ n.slowRouterIDs := by
  unfold addRouter
  split
  · rename_i h
    exact ⟨Or.inr, fun hr => hr.elim (fun heq => heq ▸ h) id⟩
  · exact List.mem_orderedInsert _

/-- A new router has no links. -/
theorem Linked.addRouter {calls : List (ℕ × ℕ)} {n : NocBase} (h : Linked calls n) (router : ℕ) :
    Linked calls (n.addRouter router) := by
  have hrouters : ∀ call ∈ calls, call.1 ∈ (n.addRouter router).slowRouterIDs ∧
      call.2 ∈ (n.addRouter router).slowRouterIDs := by
    intro call hcall
    exact ⟨mem_addRouter.mpr (Or.inr (h.routers call hcall).1), mem_addRouter.mpr (Or.inr (h.routers call hcall).2)⟩
  refine ⟨hrouters, fun r => ?_, fun r port => ?_, fun r => ?_⟩
  · unfold NocBase.addRouter
    split
    · exact h.ports r
    · rename_i hnew
      by_cases hr : r = router
      · have hnone : outOf calls router = [] := by
          unfold outOf
          rw [List.filter_eq_nil_iff.mpr, List.map_nil]
          intro call hcall heq
          exact hnew (of_decide_eq_true heq ▸ (h.routers call hcall).1)
        rw [hr, hnone]
        exact Function.update_self ..
      · exact (Function.update_of_ne hr _ _).trans (h.ports r)
  · unfold NocBase.addRouter
    split
    · exact h.links r port
    · exact h.links r port
  · unfold NocBase.addRouter
    split
    · exact h.graph r
    · exact h.graph r

/-- A link takes the next port of its source. -/
theorem Linked.connect {calls : List (ℕ × ℕ)} {n : NocBase} (h : Linked calls n) {src dst : ℕ}
    (hsrc : src ∈ n.slowRouterIDs) (hdst : dst ∈ n.slowRouterIDs) :
    Linked (calls ++ [(src, dst)]) (n.connect src dst) := by
  refine ⟨fun call hcall => ?_, fun r => ?_, fun r port hfits => ?_, fun r => ?_⟩
  · rcases List.mem_append.mp hcall with hcall | hcall
    · exact h.routers call hcall
    · rw [List.mem_singleton.mp hcall]
      exact ⟨hsrc, hdst⟩
  · rw [outOf_append]
    by_cases hr : r = src
    · rw [if_pos hr.symm, List.length_append, List.length_singleton, hr]
      refine (Function.update_self ..).trans ?_
      rw [h.ports, Nat.mod_add_mod]
    · rw [if_neg (Ne.symm hr)]
      exact (Function.update_of_ne hr _ _).trans (h.ports r)
  · rw [outOf_append] at hfits ⊢
    by_cases hr : r = src
    · rw [if_pos hr.symm] at hfits ⊢
      rw [List.length_append, List.length_singleton] at hfits
      have hport : n.routerOutputPortsCount src = (outOf calls r).length := by
        rw [h.ports, ← hr]
        exact Nat.mod_eq_of_lt hfits
      have hold := h.links r port (Nat.le_of_succ_le hfits)
      by_cases hp : port = (outOf calls r).length
      · have hkey : (r, port) = (src, n.routerOutputPortsCount src) := by rw [hr, hport, hp]
        have hnew : (n.connect src dst).links (src, n.routerOutputPortsCount src) =
            some (dst, n.routerInputPortsCount dst) := Function.update_self ..
        rw [hkey, hnew, hp, List.getElem?_append_right (Nat.le_refl _), Nat.sub_self]
        rfl
      · have hkey : (r, port) ≠ (src, n.routerOutputPortsCount src) := by
          rw [hport]
          exact fun heq => hp (congrArg Prod.snd heq)
        refine (congrArg (Option.map Prod.fst) (Function.update_of_ne hkey _ _)).trans (hold.trans ?_)
        by_cases hlt : port < (outOf calls r).length
        · rw [List.getElem?_append_left hlt]
        · rw [List.getElem?_eq_none (Nat.not_lt.mp hlt), List.getElem?_eq_none]
          rw [List.length_append, List.length_singleton]
          omega
    · rw [if_neg (Ne.symm hr)] at hfits ⊢
      have hkey : (r, port) ≠ (src, n.routerOutputPortsCount src) := fun heq => hr (congrArg Prod.fst heq)
      exact (congrArg (Option.map Prod.fst) (Function.update_of_ne hkey _ _)).trans (h.links r port hfits)
  · rw [outOf_append]
    by_cases hr : r = src
    · rw [if_pos hr.symm, hr]
      exact (Function.update_self ..).trans (by rw [h.graph])
    · rw [if_neg (Ne.symm hr)]
      exact (Function.update_of_ne hr _ _).trans (h.graph r)

theorem Linked.addLink {calls : List (ℕ × ℕ)} {n : NocBase} (h : Linked calls n) (call : ℕ × ℕ) :
    Linked (calls ++ [call]) (n.addLink call) :=
  ((h.addRouter call.1).addRouter call.2).connect (mem_addRouter.mpr (Or.inr (mem_addRouter.mpr (Or.inl rfl))))
    (mem_addRouter.mpr (Or.inl rfl))

/-- Without two links between the same routers, a link is known by the routers it connects. -/
theorem Linked.port_eq {calls : List (ℕ × ℕ)} {n : NocBase} (h : Linked calls n) (hnodup : calls.Nodup)
    {r d p p' i i' : ℕ} (hfew : (outOf calls r).length ≤ portIds) (hlink : n.links (r, p) = some (d, i))
    (hlink' : n.links (r, p') = some (d, i')) : p = p' := by
  have hget := h.links r p hfew
  have hget' := h.links r p' hfew
  rw [hlink] at hget
  rw [hlink'] at hget'
  have hout : (outOf calls r).Nodup := by
    refine (hnodup.filter _).map_on fun a ha b hb heq => ?_
    have ha' := of_decide_eq_true (List.mem_filter.mp ha).2
    have hb' := of_decide_eq_true (List.mem_filter.mp hb).2
    exact Prod.ext (ha'.trans hb'.symm) heq
  have hlt : p < (outOf calls r).length := (List.getElem?_eq_some_iff.mp hget.symm).1
  exact (List.getElem?_inj hlt hout).mp (hget.symm.trans hget')

theorem empty_linked : Linked [] empty :=
  ⟨nofun, fun _ => rfl, fun _ _ _ => rfl, fun _ => rfl⟩

/-- Any calls of `AddLink` leave the links of the calls. -/
theorem Linked.foldl {before : List (ℕ × ℕ)} {n : NocBase} (h : Linked before n) (calls : List (ℕ × ℕ)) :
    Linked (before ++ calls) (calls.foldl NocBase.addLink n) := by
  induction calls generalizing before n with
  | nil =>
    rw [List.append_nil]
    exact h
  | cons call calls ih =>
    have hnext := ih (h.addLink call)
    rw [List.append_assoc] at hnext
    exact hnext

section Tables

/-- A call of `AddRouting`: the router, the target and the output port. -/
structure RoutingCall where
  router : ℕ
  target : ℕ
  outPort : ℕ

/-- `AddRouting` for a list of entries. -/
def addRoutings (n : NocBase) (calls : List RoutingCall) : NocBase :=
  calls.foldl (fun n call => (n.addRouting call.router call.target call.outPort).2) n

variable {n : NocBase}

theorem addRouting_links (router target outPort : ℕ) : (n.addRouting router target outPort).2.links = n.links := by
  unfold addRouting
  split <;> rfl

theorem addRoutings_links (calls : List RoutingCall) : (n.addRoutings calls).links = n.links := by
  induction calls generalizing n with
  | nil => rfl
  | cons call calls ih => exact ih.trans (addRouting_links _ _ _)

/-- The first entry for a router and a target stays. -/
theorem addRouting_tables (router target outPort : ℕ) (key : ℕ × ℕ) :
    (n.addRouting router target outPort).2.routingTables key =
      if n.routingTables key = none ∧ key = (router, target) then some outPort else n.routingTables key := by
  unfold addRouting
  by_cases hset : (n.routingTables (router, target)).isSome
  · rw [if_pos hset, if_neg]
    rintro ⟨hnone, rfl⟩
    rw [hnone] at hset
    cases hset
  · rw [if_neg hset]
    by_cases hkey : key = (router, target)
    · have hnone : n.routingTables (router, target) = none := by simpa using hset
      rw [hkey, if_pos ⟨hnone, rfl⟩]
      exact Function.update_self ..
    · rw [if_neg fun h => hkey h.2]
      exact Function.update_of_ne hkey _ _

theorem addRoutings_keeps {key : ℕ × ℕ} {outPort : ℕ} (h : n.routingTables key = some outPort)
    (calls : List RoutingCall) : (n.addRoutings calls).routingTables key = some outPort := by
  induction calls generalizing n with
  | nil => exact h
  | cons call calls ih =>
    apply ih
    rw [addRouting_tables, if_neg, h]
    rintro ⟨hnone, -⟩
    rw [h] at hnone
    cases hnone

/-- Where all calls for a router and a target agree on the port, the entry is that port. -/
theorem addRoutings_tables {key : ℕ × ℕ} {outPort : ℕ} (hnone : n.routingTables key = none) {calls : List RoutingCall}
    (hcall : ∃ call ∈ calls, (call.router, call.target) = key)
    (hagree : ∀ call ∈ calls, (call.router, call.target) = key → call.outPort = outPort) :
    (n.addRoutings calls).routingTables key = some outPort := by
  induction calls generalizing n with
  | nil =>
    obtain ⟨call, hcall, -⟩ := hcall
    cases hcall
  | cons call calls ih =>
    by_cases hkey : (call.router, call.target) = key
    · refine addRoutings_keeps ?_ calls
      rw [addRouting_tables, if_pos ⟨hnone, hkey.symm⟩, hagree call List.mem_cons_self hkey]
    · apply ih
      · rw [addRouting_tables, if_neg fun h => hkey h.2.symm, hnone]
      · obtain ⟨other, hother, hotherKey⟩ := hcall
        rcases List.mem_cons.mp hother with rfl | hother
        · exact absurd hotherKey hkey
        · exact ⟨other, hother, hotherKey⟩
      · exact fun other hother => hagree other (List.mem_cons_of_mem call hother)

end Tables

theorem addRouter_tables (n : NocBase) (router : ℕ) : (n.addRouter router).routingTables = n.routingTables := by
  unfold addRouter
  split <;> rfl

/-- Links fill no table. -/
theorem addLinks_tables (n : NocBase) (calls : List (ℕ × ℕ)) :
    (calls.foldl addLink n).routingTables = n.routingTables := by
  induction calls generalizing n with
  | nil => rfl
  | cons call calls ih =>
    refine (ih _).trans ?_
    change ((n.addRouter call.1).addRouter call.2).routingTables = _
    rw [addRouter_tables, addRouter_tables]

end NocBase

end Vpsim.Connect
