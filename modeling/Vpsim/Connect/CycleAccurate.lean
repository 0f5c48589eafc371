import Vpsim.Connect.Router

/-!
# The cycle accurate network on chip

`C_NoCCycleAccurate` gives each link and each endpoint a fifo and lets the routers step at the edges of a clock. A
router reads of each input fifo what was written before the edge, how the edges of the routers fall is left open, and
so is which output fifos have a free slot. `arrived` and `injected` list what the routers got to see of an input fifo
so far and what an endpoint wrote to it.

The flits for one target take one way through the network, so they cannot overtake each other.
-/

namespace Vpsim.Connect

open Vpsim.Lib

/-- Routers and the links between their output and input ports. -/
structure Network (τ : Type) where
  routers : ℕ → RouterConfig τ
  links : ℕ × ℕ → Option (ℕ × ℕ)
  bound : ∀ key dst, links key = some dst → key.2 ∈ (routers key.1).outputPorts
  inPort_lt : ∀ key dst, links key = some dst → dst.2 < (routers dst.1).nbIn
  injective : ∀ key key' dst, links key = some dst → links key' = some dst → key = key'

/-- The routers and the fifos at their input ports. -/
structure NetState (τ α : Type) where
  routers : ℕ → Router τ α
  fifos : ℕ × ℕ → List (Flit τ α)
  arrived : ℕ → ℕ → List (Flit τ α)
  injected : ℕ × ℕ → List (Flit τ α)

/-- An endpoint writes a flit to its fifo, or a router steps, which gets to see some flits of each input fifo. -/
inductive NetAction (τ α : Type) where
  | inject (router inPort : ℕ) (f : Flit τ α)
  | route (router : ℕ) (seen : ℕ → ℕ) (free : ℕ → Bool)

namespace Network

variable {τ α : Type}

/-- A network without flits. -/
def init : NetState τ α := ⟨fun _ => Router.init, fun _ => [], fun _ _ => [], fun _ => []⟩

/-- What a step wrote to an output. -/
def written (s s' : Router τ α) (o : ℕ) : List (Flit τ α) := (s'.sent o).drop (s.sent o).length

/-- What was written to an output gets into the fifo of its link. -/
def forward (links : ℕ × ℕ → Option (ℕ × ℕ)) (router : ℕ) (flits : ℕ → List (Flit τ α))
    (fifos : ℕ × ℕ → List (Flit τ α)) (o : ℕ) : ℕ × ℕ → List (Flit τ α) :=
  match links (router, o) with
  | some dst => Function.update fifos dst (fifos dst ++ flits o)
  | none => fifos

/-- What a router gets to see. -/
def input (s : NetState τ α) (r : ℕ) (seen : ℕ → ℕ) (free : ℕ → Bool) : RouterInput τ α :=
  ⟨fun i => (s.fifos (r, i)).take (seen i), free⟩

/-- What stays in the fifos when a router has seen some flits of its own. -/
def left (s : NetState τ α) (r : ℕ) (seen : ℕ → ℕ) (port : ℕ × ℕ) : List (Flit τ α) :=
  if port.1 = r then (s.fifos port).drop (seen port.2) else s.fifos port

/-- A router steps. -/
def route (c : Network τ) (s : NetState τ α) (r : ℕ) (seen : ℕ → ℕ) (free : ℕ → Bool) : NetState τ α :=
  let router := (s.routers r).doRoute (c.routers r) (input s r seen free)
  { s with
    routers := Function.update s.routers r router
    arrived := Function.update s.arrived r fun i => s.arrived r i ++ (s.fifos (r, i)).take (seen i)
    fifos := (c.routers r).outputPorts.foldl (forward c.links r (written (s.routers r) router)) (left s r seen) }

/-- The state after an action. -/
def after (c : Network τ) (s : NetState τ α) : NetAction τ α → NetState τ α
  | .inject r i f =>
    { s with
      fifos := Function.update s.fifos (r, i) (s.fifos (r, i) ++ [f])
      injected := Function.update s.injected (r, i) (s.injected (r, i) ++ [f]) }
  | .route r seen free => c.route s r seen free

/-- A run. -/
def run (c : Network τ) (s : NetState τ α) (acts : List (NetAction τ α)) : NetState τ α := acts.foldl c.after s

/-- An input port without a link, which is that of an endpoint. -/
def Local (c : Network τ) (port : ℕ × ℕ) : Prop := ∀ key, c.links key ≠ some port

/-- The input ports on the way of a target, from one of them to where the flits leave the network. -/
inductive Route (c : Network τ) (t : τ) (exit : ℕ × ℕ) : ℕ × ℕ → List (ℕ × ℕ) → Prop
  | last {r i : ℕ} (hin : i < (c.routers r).nbIn) (hexit : exit = (r, (c.routers r).targetToOutPort t))
      (hnone : c.links exit = none) : Route c t exit (r, i) []
  | hop {r i : ℕ} {next : ℕ × ℕ} {rest : List (ℕ × ℕ)} (hin : i < (c.routers r).nbIn)
      (hlink : c.links (r, (c.routers r).targetToOutPort t) = some next) (hrest : Route c t exit next rest) :
      Route c t exit (r, i) (next :: rest)

/-- The payloads of one kind for a target. -/
def flow [DecidableEq τ] (t : τ) (kind : α → Bool) (flits : List (Flit τ α)) : List α :=
  (flits.filter fun f => f.targetId = t && kind f.payload).map Flit.payload

/-- The payloads of a kind that wait at an input port: in the fifo, in the buffer of the router and among the flits
that the router has seen. -/
def waiting [DecidableEq τ] (t : τ) (kind : α → Bool) (s : NetState τ α) (port : ℕ × ℕ) : List α :=
  flow t kind ((s.routers port.1).requestsBeeingRouted port.2).toList ++
    flow t kind ((s.routers port.1).inputFifos port.2) ++ flow t kind (s.fifos port)

/-- The payloads of a kind on a way, those nearer to the target first. -/
def inFlight [DecidableEq τ] (t : τ) (kind : α → Bool) (s : NetState τ α) : List (ℕ × ℕ) → List α
  | [] => []
  | port :: ports => inFlight t kind s ports ++ waiting t kind s port

/-- The payloads of a kind that left the network at an output port. -/
def delivered [DecidableEq τ] (t : τ) (kind : α → Bool) (s : NetState τ α) (exit : ℕ × ℕ) : List α :=
  flow t kind ((s.routers exit.1).sent exit.2)

variable {c : Network τ} {s : NetState τ α}

/-! ## What the fifos hold -/

/-- What every run keeps: each router conserves what it has seen, a link passes on what was written to it, and the
fifo of an endpoint what was injected. -/
structure Flowing (c : Network τ) (s : NetState τ α) : Prop where
  conserved : ∀ r, (s.routers r).Conserved (c.routers r) (s.arrived r)
  linked : ∀ key dst, c.links key = some dst → s.arrived dst.1 dst.2 ++ s.fifos dst = (s.routers key.1).sent key.2
  injected : ∀ port, c.Local port → s.arrived port.1 port.2 ++ s.fifos port = s.injected port

/-- A fifo behind none of the ports stays. -/
theorem forward_other {r : ℕ} (flits : ℕ → List (Flit τ α)) {dst : ℕ × ℕ} {ports : List ℕ}
    (hports : ∀ o ∈ ports, c.links (r, o) ≠ some dst) (fifos : ℕ × ℕ → List (Flit τ α)) :
    ports.foldl (forward c.links r flits) fifos dst = fifos dst := by
  induction ports generalizing fifos with
  | nil => rfl
  | cons o ports ih =>
    refine (ih (fun o' ho' => hports o' (List.mem_cons_of_mem o ho')) _).trans ?_
    have hne := hports o List.mem_cons_self
    unfold forward
    cases hlink : c.links (r, o) with
    | none => rfl
    | some dst' =>
      rw [hlink] at hne
      exact Function.update_of_ne (fun heq => hne (congrArg some heq.symm)) _ _

/-- The fifo behind one of the ports gets what was written to it. -/
theorem forward_linked {r o : ℕ} (flits : ℕ → List (Flit τ α)) {dst : ℕ × ℕ} (hlink : c.links (r, o) = some dst)
    {ports : List ℕ} (hnodup : ports.Nodup) (ho : o ∈ ports) (fifos : ℕ × ℕ → List (Flit τ α)) :
    ports.foldl (forward c.links r flits) fifos dst = fifos dst ++ flits o := by
  induction ports generalizing fifos with
  | nil => cases ho
  | cons o' ports ih =>
    obtain ⟨hnotin, hnodup⟩ := List.nodup_cons.mp hnodup
    have hunique {p : ℕ} (hp : c.links (r, p) = some dst) : p = o :=
      (Prod.ext_iff.mp (c.injective _ _ dst hp hlink)).2
    rw [List.foldl_cons]
    rcases List.mem_cons.mp ho with rfl | ho
    · rw [forward_other flits fun p hp hlink' => hnotin (hunique hlink' ▸ hp)]
      unfold forward
      rw [hlink]
      exact Function.update_self dst _ fifos
    · rw [ih hnodup ho]
      have hne : c.links (r, o') ≠ some dst := fun hlink' => hnotin (hunique hlink' ▸ ho)
      congr 1
      unfold forward
      cases hlink' : c.links (r, o') with
      | none => rfl
      | some dst' =>
        rw [hlink'] at hne
        exact Function.update_of_ne (fun heq => hne (congrArg some heq.symm)) _ _

/-- Only the output ports of a router are written to. -/
theorem sendOutputs_other (cfg : RouterConfig τ) (router : Router τ α) (free : ℕ → Bool) {o : ℕ} {ports : List ℕ}
    (ho : o ∉ ports) : (ports.foldl (Router.sendOutput cfg free) router).sent o = router.sent o :=
  Router.sendOutputs_sent router free ho

theorem doRoute_other (cfg : RouterConfig τ) (router : Router τ α) (input : RouterInput τ α) {o : ℕ}
    (ho : o ∉ cfg.outputPorts) : (router.doRoute cfg input).sent o = router.sent o := by
  unfold Router.doRoute
  rw [sendOutputs_other cfg _ input.free ho, Router.readInputs_sent]
  rfl

/-- What was sent before a step and what it wrote are what was sent after it. -/
theorem sent_append_written (cfg : RouterConfig τ) (router : Router τ α) (input : RouterInput τ α) (o : ℕ) :
    router.sent o ++ written router (router.doRoute cfg input) o = (router.doRoute cfg input).sent o :=
  List.prefix_iff_eq_append.mp (Router.doRoute_extends router input o)

theorem init_flowing (c : Network τ) : Flowing c (init : NetState τ α) :=
  ⟨fun _ => Router.init_conserved, fun _ _ _ => rfl, fun _ _ => rfl⟩

/-- An endpoint that writes to its fifo keeps the flows. -/
theorem Flowing.inject (h : Flowing c s) {r i : ℕ} (hlocal : c.Local (r, i)) (f : Flit τ α) :
    Flowing c (c.after s (.inject r i f)) := by
  refine ⟨h.conserved, fun key dst hlink => ?_, fun port hport => ?_⟩
  · have hne : dst ≠ (r, i) := by
      rintro rfl
      exact hlocal key hlink
    change s.arrived dst.1 dst.2 ++ Function.update s.fifos (r, i) _ dst = _
    rw [Function.update_of_ne hne]
    exact h.linked key dst hlink
  · change s.arrived port.1 port.2 ++ Function.update s.fifos (r, i) _ port = Function.update s.injected (r, i) _ port
    by_cases hport' : port = (r, i)
    · subst hport'
      rw [Function.update_self, Function.update_self, ← List.append_assoc, h.injected _ hport]
    · rw [Function.update_of_ne hport', Function.update_of_ne hport', h.injected _ hport]

/-- A step moves flits from the fifos to the router and loses none. -/
theorem arrived_append_left (s : NetState τ α) (r : ℕ) (seen : ℕ → ℕ) (port : ℕ × ℕ) :
    Function.update s.arrived r (fun i => s.arrived r i ++ (s.fifos (r, i)).take (seen i)) port.1 port.2 ++
      left s r seen port = s.arrived port.1 port.2 ++ s.fifos port := by
  unfold left
  by_cases hr : port.1 = r
  · obtain ⟨r', i⟩ := port
    obtain rfl : r' = r := hr
    rw [Function.update_self, if_pos rfl, List.append_assoc, List.take_append_drop]
  · rw [Function.update_of_ne hr, if_neg hr]

/-- A step of a router changes what was written to a fifo only by the flits that the router sent to it.
-/
theorem route_fifo (c : Network τ) (s : NetState τ α) (r : ℕ) (seen : ℕ → ℕ) (free : ℕ → Bool) (port : ℕ × ℕ) :
    (c.route s r seen free).arrived port.1 port.2 ++ (c.route s r seen free).fifos port =
        s.arrived port.1 port.2 ++ s.fifos port ∧ (∀ o, c.links (r, o) = some port →
          ((c.route s r seen free).routers r).sent o = (s.routers r).sent o) ∨
      ∃ o, c.links (r, o) = some port ∧
        (c.route s r seen free).arrived port.1 port.2 ++ (c.route s r seen free).fifos port =
          s.arrived port.1 port.2 ++ s.fifos port ++
            written (s.routers r) ((s.routers r).doRoute (c.routers r) (input s r seen free)) o := by
  have hfifos : (c.route s r seen free).fifos port = (c.routers r).outputPorts.foldl
      (forward c.links r (written (s.routers r) ((s.routers r).doRoute (c.routers r) (input s r seen free))))
        (left s r seen) port := rfl
  have harrived : (c.route s r seen free).arrived = Function.update s.arrived r fun i =>
      s.arrived r i ++ (s.fifos (r, i)).take (seen i) := rfl
  rw [hfifos, harrived]
  by_cases hport : ∃ o ∈ (c.routers r).outputPorts, c.links (r, o) = some port
  · obtain ⟨o, ho, hlink⟩ := hport
    right
    refine ⟨o, hlink, ?_⟩
    rw [forward_linked _ hlink (c.routers r).nodup ho, ← List.append_assoc, arrived_append_left]
  · left
    rw [forward_other _ fun o ho hlink => hport ⟨o, ho, hlink⟩, arrived_append_left]
    refine ⟨rfl, fun o hlink => ?_⟩
    change (Function.update s.routers r _ r).sent o = _
    rw [Function.update_self, doRoute_other _ _ _ fun ho => hport ⟨o, ho, hlink⟩]

/-- A step of a router keeps the flows. -/
theorem Flowing.route (h : Flowing c s) (r : ℕ) (seen : ℕ → ℕ) (free : ℕ → Bool) :
    Flowing c (c.route s r seen free) := by
  have hrouter {r' : ℕ} (hr : r' ≠ r) : (c.route s r seen free).routers r' = s.routers r' :=
    Function.update_of_ne hr _ _
  have hself : (c.route s r seen free).routers r = (s.routers r).doRoute (c.routers r) (input s r seen free) :=
    Function.update_self _ _ _
  refine ⟨fun r' => ?_, fun key dst hlink => ?_, fun port hport => ?_⟩
  · by_cases hr : r' = r
    · subst hr
      have harrived : (c.route s r' seen free).arrived r' = fun i =>
          s.arrived r' i ++ (input s r' seen free).arrivals i := Function.update_self _ _ _
      rw [hself, harrived]
      exact (h.conserved r').doRoute _
    · have harrived : (c.route s r seen free).arrived r' = s.arrived r' := Function.update_of_ne hr _ _
      rw [hrouter hr, harrived]
      exact h.conserved r'
  · obtain ⟨r', o⟩ := key
    have hbefore := h.linked (r', o) dst hlink
    rcases route_fifo c s r seen free dst with ⟨heq, hquiet⟩ | ⟨o', hlink', heq⟩
    · rw [heq, hbefore]
      by_cases hr : r' = r
      · subst hr
        exact (hquiet o hlink).symm
      · rw [hrouter hr]
    · obtain ⟨rfl, rfl⟩ := Prod.ext_iff.mp (c.injective _ _ dst hlink' hlink)
      rw [heq, hbefore, hself]
      exact sent_append_written _ _ _ o'
  · rcases route_fifo c s r seen free port with ⟨heq, -⟩ | ⟨o, hlink, -⟩
    · rw [heq]
      exact h.injected port hport
    · exact absurd hlink (hport (r, o))

/-- Every run in which endpoints write to their own fifos keeps the flows. -/
theorem Flowing.run (h : Flowing c s) {acts : List (NetAction τ α)}
    (hlocal : ∀ r i f, .inject r i f ∈ acts → c.Local (r, i)) : Flowing c (c.run s acts) := by
  induction acts generalizing s with
  | nil => exact h
  | cons a acts ih =>
    have hrest : ∀ r i f, .inject r i f ∈ acts → c.Local (r, i) := fun r i f hf =>
      hlocal r i f (List.mem_cons_of_mem a hf)
    cases a with
    | inject r i f => exact ih (h.inject (hlocal r i f List.mem_cons_self) f) hrest
    | route r seen free => exact ih (h.route r seen free) hrest

/-! ## The way of a target -/

variable {t : τ} {kind : α → Bool} {exit port next : ℕ × ℕ} {rest : List (ℕ × ℕ)}

/-- The link behind a port on the way leads to a port on the way. -/
theorem Route.closed (h : c.Route t exit port rest) {p : ℕ × ℕ} (hp : p ∈ port :: rest)
    (hlink : c.links (p.1, (c.routers p.1).targetToOutPort t) = some next) : next ∈ port :: rest := by
  induction h with
  | last hin hexit hnone =>
    rw [List.mem_singleton.mp hp, ← hexit, hnone] at hlink
    cases hlink
  | hop hin hlink' hrest ih =>
    rcases List.mem_cons.mp hp with rfl | hp
    · rw [hlink'] at hlink
      obtain rfl := Option.some.inj hlink
      exact List.mem_cons_of_mem _ List.mem_cons_self
    · exact List.mem_cons_of_mem _ (ih hp)

/-- From a port on the way that has no link behind it the flits leave the network. -/
theorem Route.exit_eq (h : c.Route t exit port rest) {p : ℕ × ℕ} (hp : p ∈ port :: rest)
    (hnone : c.links (p.1, (c.routers p.1).targetToOutPort t) = none) :
    exit = (p.1, (c.routers p.1).targetToOutPort t) := by
  induction h with
  | last hin hexit _ =>
    rw [List.mem_singleton.mp hp]
    exact hexit
  | hop hin hlink hrest ih =>
    rcases List.mem_cons.mp hp with rfl | hp
    · rw [hlink] at hnone
      cases hnone
    · exact ih hp

/-- The way on from a router is the same from all of its ports. -/
theorem Route.unique (h : c.Route t exit port rest) {port' : ℕ × ℕ} {rest' : List (ℕ × ℕ)}
    (h' : c.Route t exit port' rest') (hrouter : port.1 = port'.1) : rest = rest' := by
  induction h generalizing port' rest' with
  | last hin hexit hnone =>
    cases h' with
    | last _ _ _ => rfl
    | hop _ hlink _ =>
      obtain rfl := hrouter
      rw [← hexit, hnone] at hlink
      cases hlink
  | hop hin hlink hrest ih =>
    cases h' with
    | last _ hexit hnone =>
      obtain rfl := hrouter
      rw [hexit, hlink] at hnone
      cases hnone
    | hop _ hlink' hrest' =>
      obtain rfl := hrouter
      rw [hlink] at hlink'
      obtain rfl := Option.some.inj hlink'
      rw [ih hrest' rfl]

/-- The way from a port further on is shorter. -/
theorem Route.from_mem (h : c.Route t exit port rest) {p : ℕ × ℕ} (hp : p ∈ rest) :
    ∃ rest', c.Route t exit p rest' ∧ rest'.length < rest.length := by
  induction h with
  | last _ _ _ => cases hp
  | hop hin hlink hrest ih =>
    rcases List.mem_cons.mp hp with rfl | hp
    · exact ⟨_, hrest, Nat.lt_succ_self _⟩
    · obtain ⟨rest', hroute, hlt⟩ := ih hp
      exact ⟨rest', hroute, hlt.trans (Nat.lt_succ_self _)⟩

/-- The way does not come back to the router it starts from. -/
theorem Route.ne_router (h : c.Route t exit port rest) {p : ℕ × ℕ} (hp : p ∈ rest) : port.1 ≠ p.1 := by
  intro hrouter
  obtain ⟨rest', hroute, hlt⟩ := h.from_mem hp
  rw [h.unique hroute hrouter] at hlt
  exact absurd hlt (Nat.lt_irrefl _)

/-- The way has one port of each router. -/
theorem Route.eq_of_router (h : c.Route t exit port rest) {p q : ℕ × ℕ} (hp : p ∈ port :: rest)
    (hq : q ∈ port :: rest) (hrouter : p.1 = q.1) : p = q := by
  induction h with
  | last _ _ _ => rw [List.mem_singleton.mp hp, List.mem_singleton.mp hq]
  | hop hin hlink hrest ih =>
    have hfirst := fun p hp => (Route.hop hin hlink hrest).ne_router (p := p) hp
    rcases List.mem_cons.mp hp with rfl | hp' <;> rcases List.mem_cons.mp hq with rfl | hq'
    · rfl
    · exact absurd hrouter (hfirst q hq')
    · exact absurd hrouter.symm (hfirst p hp')
    · exact ih hp' hq'

/-- What a router sent was seen by it before. -/
theorem seen_of_sent {cfg : RouterConfig τ} {arrived : ℕ → List (Flit τ α)} {router : Router τ α}
    (h : router.Conserved cfg arrived) {o : ℕ} {f : Flit τ α} (hf : f ∈ router.sent o) :
    ∃ i, f.currentInputPortID = i ∧ cfg.targetToOutPort f.targetId = o ∧
      ∃ g ∈ arrived i, g.targetId = f.targetId ∧ g.payload = f.payload := by
  obtain ⟨hport, hin⟩ := h.sentTo o f hf
  refine ⟨_, rfl, hport, ?_⟩
  have hmem : f ∈ Router.fromPort f.currentInputPortID (router.sent o) :=
    List.mem_filter.mpr ⟨hf, decide_eq_true rfl⟩
  have horder := h.order f.currentInputPortID hin o
  have harrived : f ∈ (Router.toPort cfg o (arrived f.currentInputPortID)).map (Router.stamp f.currentInputPortID) := by
    rw [horder]
    exact List.mem_append_left _ (List.mem_append_left _ hmem)
  obtain ⟨g, hg, hstamp⟩ := List.mem_map.mp harrived
  refine ⟨g, List.mem_of_mem_filter hg, ?_, ?_⟩
  · rw [← hstamp]
    rfl
  · rw [← hstamp]
    rfl

/-- The flits of a flow are at some ports only. -/
def OnWay (t : τ) (kind : α → Bool) (ports : List (ℕ × ℕ)) (s : NetState τ α) : Prop :=
  ∀ port : ℕ × ℕ, ∀ f ∈ s.arrived port.1 port.2 ++ s.fifos port, f.targetId = t → kind f.payload = true → port ∈ ports

theorem init_onWay (ports : List (ℕ × ℕ)) : OnWay t kind ports (init : NetState τ α) := by
  intro port f hf
  have hnone : f ∈ ([] : List (Flit τ α)) := hf
  cases hnone

/-- A flit of the flow that a router has sent came in by a port on the way, and went out behind it. -/
theorem OnWay.of_sent {ports : List (ℕ × ℕ)} {s' : NetState τ α} (h : OnWay t kind ports s') (hs : Flowing c s')
    {r o : ℕ} {f : Flit τ α} (hf : f ∈ (s'.routers r).sent o) (htarget : f.targetId = t)
    (hkind : kind f.payload = true) :
    (r, f.currentInputPortID) ∈ ports ∧ (c.routers r).targetToOutPort t = o := by
  obtain ⟨i, rfl, hport, g, hg, hgt, hgp⟩ := seen_of_sent (hs.conserved r) hf
  refine ⟨h (r, _) g (List.mem_append_left _ hg) (hgt.trans htarget) ?_, htarget ▸ hport⟩
  rw [hgp]
  exact hkind

/-- A step of a router keeps the flow on its way. -/
theorem OnWay.route (h : OnWay t kind (port :: rest) s) (hs : Flowing c s) (hroute : c.Route t exit port rest) (r : ℕ)
    (seen : ℕ → ℕ) (free : ℕ → Bool) : OnWay t kind (port :: rest) (c.route s r seen free) := by
  have hs' := hs.route r seen free
  intro p f hf htarget hkind
  rcases route_fifo c s r seen free p with ⟨heq, -⟩ | ⟨o, hlink, heq⟩
  · rw [heq] at hf
    exact h p f hf htarget hkind
  · have hsent : f ∈ ((c.route s r seen free).routers r).sent o := by
      rw [← hs'.linked (r, o) p hlink]
      exact hf
    obtain ⟨i, hi, hport, g, hg, hgt, hgp⟩ := seen_of_sent (hs'.conserved r) hsent
    have hbefore : g ∈ s.arrived r i ++ s.fifos (r, i) := by
      have htotal := arrived_append_left s r seen (r, i)
      rw [← htotal]
      exact List.mem_append_left _ hg
    have hon : (r, i) ∈ port :: rest := by
      refine h (r, i) g hbefore (hgt.trans htarget) ?_
      rw [hgp]
      exact hkind
    refine hroute.closed hon ?_
    rw [← htarget, hport]
    exact hlink

/-- An endpoint on the way writes to its fifo. -/
theorem OnWay.inject {ports : List (ℕ × ℕ)} (h : OnWay t kind ports s) {r i : ℕ} {f : Flit τ α}
    (hf : f.targetId = t → kind f.payload = true → (r, i) ∈ ports) : OnWay t kind ports (c.after s (.inject r i f)) := by
  intro p g hg htarget hkind
  change g ∈ s.arrived p.1 p.2 ++ Function.update s.fifos (r, i) _ p at hg
  by_cases hp : p = (r, i)
  · subst hp
    rw [Function.update_self, ← List.append_assoc] at hg
    rcases List.mem_append.mp hg with hg | hg
    · exact h (r, i) g hg htarget hkind
    · rw [List.mem_singleton.mp hg] at htarget hkind
      exact hf htarget hkind
  · rw [Function.update_of_ne hp] at hg
    exact h p g hg htarget hkind

/-- The flow stays on its way over every run. -/
theorem OnWay.run (h : OnWay t kind (port :: rest) s) (hs : Flowing c s) (hroute : c.Route t exit port rest)
    {acts : List (NetAction τ α)} (hlocal : ∀ r i f, .inject r i f ∈ acts → c.Local (r, i))
    (hsource : ∀ r i f, .inject r i f ∈ acts → f.targetId = t → kind f.payload = true → (r, i) = port) :
    OnWay t kind (port :: rest) (c.run s acts) := by
  induction acts generalizing s with
  | nil => exact h
  | cons a acts ih =>
    have hlocal' : ∀ r i f, .inject r i f ∈ acts → c.Local (r, i) := fun r i f hf =>
      hlocal r i f (List.mem_cons_of_mem a hf)
    have hsource' : ∀ r i f, .inject r i f ∈ acts → f.targetId = t → kind f.payload = true → (r, i) = port :=
      fun r i f hf => hsource r i f (List.mem_cons_of_mem a hf)
    cases a with
    | inject r i f =>
      have hon : f.targetId = t → kind f.payload = true → (r, i) ∈ port :: rest := fun htarget hkind =>
        List.mem_cons.mpr (.inl (hsource r i f List.mem_cons_self htarget hkind))
      exact ih (h.inject hon) (hs.inject (hlocal r i f List.mem_cons_self) f) hlocal' hsource'
    | route r seen free => exact ih (h.route hs hroute r seen free) (hs.route r seen free) hlocal' hsource'

/-! ## The order of the flits -/

section Order

variable [DecidableEq τ]

@[simp] theorem flow_append (l l' : List (Flit τ α)) : flow t kind (l ++ l') = flow t kind l ++ flow t kind l' := by
  unfold flow
  rw [List.filter_append, List.map_append]

/-- A flit counts in the flow whatever port it came in by. -/
theorem flow_stamp (i : ℕ) (l : List (Flit τ α)) : flow t kind (l.map (Router.stamp i)) = flow t kind l := by
  unfold flow
  rw [List.filter_map, List.map_map]
  rfl

/-- All flits of a flow go to one output port. -/
theorem flow_toPort (cfg : RouterConfig τ) (l : List (Flit τ α)) :
    flow t kind (Router.toPort cfg (cfg.targetToOutPort t) l) = flow t kind l := by
  unfold flow Router.toPort
  rw [List.filter_filter]
  congr 1
  apply List.filter_congr
  intro f _
  by_cases hf : f.targetId = t
  · have hport : Router.outPort cfg f = cfg.targetToOutPort t := congrArg cfg.targetToOutPort hf
    rw [decide_eq_true hport, Bool.and_true]
  · rw [decide_eq_false hf]
    rfl

/-- Where all flits of a flow came in by one port, the flow through that port is the whole flow. -/
theorem flow_fromPort {i : ℕ} {l : List (Flit τ α)}
    (hl : ∀ f ∈ l, f.targetId = t → kind f.payload = true → f.currentInputPortID = i) :
    flow t kind (Router.fromPort i l) = flow t kind l := by
  unfold flow Router.fromPort
  rw [List.filter_filter]
  congr 1
  apply List.filter_congr
  intro f hf
  by_cases hflow : (decide (f.targetId = t) && kind f.payload) = true
  · obtain ⟨htarget, hkind⟩ := Bool.and_eq_true_iff.mp hflow
    rw [decide_eq_true (hl f hf (of_decide_eq_true htarget) hkind), Bool.and_true]
  · rw [Bool.eq_false_iff.mpr hflow]
    rfl

/-- What a router has seen of a flow it sent, holds or has still to read. -/
theorem flow_arrived {cfg : RouterConfig τ} {arrived : ℕ → List (Flit τ α)} {router : Router τ α}
    (h : router.Conserved cfg arrived) {i : ℕ} (hi : i < cfg.nbIn)
    (hsingle : ∀ f ∈ router.sent (cfg.targetToOutPort t), f.targetId = t → kind f.payload = true →
      f.currentInputPortID = i) :
    flow t kind (arrived i) = flow t kind (router.sent (cfg.targetToOutPort t)) ++
      (flow t kind (router.requestsBeeingRouted i).toList ++ flow t kind (router.inputFifos i)) := by
  have horder := congrArg (flow t kind) (h.order i hi (cfg.targetToOutPort t))
  rw [flow_append, flow_append, flow_stamp, flow_stamp, flow_toPort, flow_toPort, flow_toPort, flow_fromPort hsingle,
    List.append_assoc] at horder
  exact horder

/-- What was written to a fifo on the way left the network or is further on. -/
theorem Route.in_order {ports : List (ℕ × ℕ)} (hs : Flowing c s) (hon : OnWay t kind ports s)
    (hrouters : ∀ p ∈ ports, ∀ q ∈ ports, p.1 = q.1 → p = q) (h : c.Route t exit port rest)
    (hports : ∀ p ∈ port :: rest, p ∈ ports) :
    flow t kind (s.arrived port.1 port.2 ++ s.fifos port) =
      delivered t kind s exit ++ inFlight t kind s (port :: rest) := by
  induction h with
  | @last r i hin hexit hnone =>
    have hsingle : ∀ f ∈ (s.routers r).sent ((c.routers r).targetToOutPort t), f.targetId = t →
        kind f.payload = true → f.currentInputPortID = i := by
      intro f hf htarget hkind
      have hmem := (hon.of_sent hs hf htarget hkind).1
      exact (Prod.ext_iff.mp (hrouters _ hmem _ (hports _ List.mem_cons_self) rfl)).2
    rw [flow_append, flow_arrived (hs.conserved r) hin hsingle, hexit]
    change _ = flow t kind ((s.routers r).sent _) ++ ([] ++ waiting t kind s (r, i))
    rw [List.nil_append, List.append_assoc]
    rfl
  | @hop r i next rest hin hlink hrest ih =>
    have hsingle : ∀ f ∈ (s.routers r).sent ((c.routers r).targetToOutPort t), f.targetId = t →
        kind f.payload = true → f.currentInputPortID = i := by
      intro f hf htarget hkind
      have hmem := (hon.of_sent hs hf htarget hkind).1
      exact (Prod.ext_iff.mp (hrouters _ hmem _ (hports _ List.mem_cons_self) rfl)).2
    have hnext := ih fun p hp => hports p (List.mem_cons_of_mem _ hp)
    rw [flow_append, flow_arrived (hs.conserved r) hin hsingle]
    have hlinked : s.arrived next.1 next.2 ++ s.fifos next = (s.routers r).sent _ := hs.linked _ next hlink
    rw [← hlinked, hnext]
    change _ = delivered t kind s exit ++ (inFlight t kind s (next :: rest) ++ waiting t kind s (r, i))
    unfold waiting
    rw [List.append_assoc, List.append_assoc, List.append_assoc]

/-- Nothing is lost, doubled, overtaken or led astray. The flits of one kind that one endpoint sends to a target leave
the network at the target in the order in which they were injected, and those that have not left wait on the way in
this order. -/
structure Delivers (c : Network τ) (t : τ) (kind : α → Bool) (acts : List (NetAction τ α)) (exit port : ℕ × ℕ)
    (rest : List (ℕ × ℕ)) : Prop where
  order : flow t kind ((c.run init acts).injected port) =
    delivered t kind (c.run init acts) exit ++ inFlight t kind (c.run init acts) (port :: rest)
  astray : ∀ key, c.links key = none → key ≠ exit → delivered t kind (c.run init acts) key = []

/-- A target that is reached from an endpoint gets the flits of a kind in order if the other endpoints do not send it
flits of this kind. -/
theorem Route.delivers (hroute : c.Route t exit port rest) (hport : c.Local port) {acts : List (NetAction τ α)}
    (hlocal : ∀ r i f, .inject r i f ∈ acts → c.Local (r, i))
    (hsource : ∀ r i f, .inject r i f ∈ acts → f.targetId = t → kind f.payload = true → (r, i) = port) :
    Delivers c t kind acts exit port rest := by
  have hs : Flowing c (c.run (init : NetState τ α) acts) := (init_flowing c).run hlocal
  have hon : OnWay t kind (port :: rest) (c.run (init : NetState τ α) acts) :=
    (init_onWay _).run (init_flowing c) hroute hlocal hsource
  refine ⟨?_, fun key hnone hne => ?_⟩
  · rw [← hs.injected port hport]
    exact hroute.in_order hs hon (fun p hp q hq => hroute.eq_of_router hp hq) fun p hp => hp
  · apply List.eq_nil_iff_forall_not_mem.mpr
    intro a ha
    obtain ⟨f, hf, -⟩ := List.mem_map.mp ha
    obtain ⟨hsent, hflow⟩ := List.mem_filter.mp hf
    obtain ⟨htarget, hkind⟩ := Bool.and_eq_true_iff.mp hflow
    obtain ⟨hmem, hout⟩ := hon.of_sent hs hsent (of_decide_eq_true htarget) hkind
    have hexit := hroute.exit_eq hmem (by rw [hout]; exact hnone)
    rw [hout] at hexit
    exact hne hexit.symm

end Order

end Network

end Vpsim.Connect
