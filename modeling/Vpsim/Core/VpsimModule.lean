import Vpsim.Lib.Propagation
import Vpsim.Core.ParameterSetModifier
import Mathlib.Data.Fintype.Card
import Mathlib.Logic.Function.Basic

/-!
# Modules and the propagation of parameters

The graph of `VpsimModule`s and the calls that change it. Every call ends in
`refreshParameters`, which empties the exported parameters of all transitive predecessors,
recomputes the module it is called on and, when that module's export has changed, goes on to
its predecessors. The type `M` names the modules; a state of the graph gives each of them its
fields.
-/

namespace Vpsim.Core

open Vpsim.Lib

/-- `moduleType`. -/
inductive ModuleType where
  | memoryMapped
  | intermediate
  | dummy
deriving DecidableEq, Repr

/-- An output port: its entries of `mSuccessors` and `mEffectiveParameters`. -/
structure OutPort (M D R : Type) where
  successor : Option M
  effectiveParameters : ParameterSet D R

/-- The fields of a `VpsimModule` that take part in the propagation. `modifier` lists the
modifiers attached to the neutral one, in the order in which they were attached. -/
structure VpsimModule (M D R : Type) where
  predecessors : List M
  ports : List (OutPort M D R)
  intrinsecParameters : ParameterSet D R
  exportedParameters : ParameterSet D R
  modifier : List ParameterSetModifier
  ownAddrSpace : AddrSpace
  moduleType : ModuleType

/-- The arguments of the constructor of a module. -/
structure ModuleConfig where
  moduleType : ModuleType
  ownAddrSpace : AddrSpace
  own_wellFormed : ownAddrSpace.WellFormed
  nbPort : ℕ

/-- A state of all modules. -/
abbrev Graph (M D R : Type) := M → VpsimModule M D R

variable {M D R : Type}

/-- The constructor `VpsimModule::VpsimModule`. -/
def ModuleConfig.construct (config : ModuleConfig) : VpsimModule M D R where
  predecessors := []
  ports := List.replicate config.nbPort ⟨none, ParameterSet.empty⟩
  intrinsecParameters := ParameterSet.empty
  exportedParameters := ParameterSet.empty
  modifier := []
  ownAddrSpace := config.ownAddrSpace
  moduleType := config.moduleType

namespace VpsimModule

/-- The connected successors, by port. -/
def successors (v : VpsimModule M D R) : List M := v.ports.filterMap OutPort.successor

/-- The parameter set that the fields of a module define for its predecessors: the merge of the
effective parameters of all ports, with the intrinsic ones added, through the modifiers. -/
def exportOf [LinearOrder D] [Add D] [HMul D R D] (v : VpsimModule M D R) :
    Except Failure (ParameterSet D R) :=
  ParameterSetModifier.apply
    ((v.ports.foldl (fun e port => e.mergeImportedParam port.effectiveParameters)
      ParameterSet.empty).addExportedParam v.intrinsecParameters) v.modifier

end VpsimModule

namespace Graph

variable [DecidableEq M]

/-- `VpsimModule::addPredecessor` of the module `s`. -/
def addPredecessor (g : Graph M D R) (s p : M) : Graph M D R :=
  if p ∈ (g s).predecessors then g
  else Function.update g s { g s with predecessors := (g s).predecessors ++ [p] }

/-- `VpsimModule::getAllowedSpaces`, to a given depth of recursion. The list of the modules
called so far is shared by all calls, so it is returned with the spaces. -/
def getAllowedSpacesRec (g : Graph M D R) : ℕ → M → List M → Except Failure (List M × SpaceSet)
  | 0, _, _ => .error .outOfFuel
  | fuel + 1, m, called => do
    let (called, allowed) ← (g m).successors.foldlM (fun (called, allowed) s =>
      if s ∈ called then .ok (called, allowed)
      else do
        let (called, sas) ← getAllowedSpacesRec g fuel s called
        .ok (called, sas.members.foldl (fun set as => set.insert as) allowed))
      (called ++ [m], SpaceSet.empty)
    let allowed := if (g m).moduleType = .memoryMapped then allowed.insert (g m).ownAddrSpace else allowed
    let allowed ← ParameterSetModifier.applySpaces allowed (g m).modifier
    .ok (called, allowed)

/-- `VpsimModule::getAllowedSpaces` with the default argument. -/
def getAllowedSpaces [Fintype M] (g : Graph M D R) (m : M) : Except Failure SpaceSet :=
  (getAllowedSpacesRec g (Fintype.card M) m []).map Prod.snd

/-- The module `m` with nothing exported. -/
def clearExport (g : Graph M D R) (m : M) : Graph M D R :=
  Function.update g m { g m with exportedParameters := ParameterSet.empty }

/-- `VpsimModule::clearPredecessors`, to a given depth of recursion. -/
def clearPredecessorsRec : ℕ → M → List M × Graph M D R → List M × Graph M D R
  | 0, _, (called, g) => (called, g)
  | fuel + 1, m, (called, g) =>
    (g m).predecessors.foldl (fun (called, g) pred =>
      if pred ∈ called then (called, g)
      else clearPredecessorsRec fuel pred (called, clearExport g pred)) (called ++ [m], g)

/-- `VpsimModule::clearPredecessors` with the default argument. -/
def clearPredecessors [Fintype M] (g : Graph M D R) (m : M) : Graph M D R :=
  (clearPredecessorsRec (Fintype.card M) m ([], g)).2

/-- The fields of `m` after a refresh has read the exports of the successors and trimmed the
intrinsic parameters. -/
def refreshed [LinearOrder D] [DecidableEq R] (g : Graph M D R) (m : M) (allowed : SpaceSet) :
    VpsimModule M D R :=
  { g m with
    ports := (g m).ports.map fun port => match port.successor with
      | some s => { port with effectiveParameters := (g s).exportedParameters }
      | none => port
    intrinsecParameters := (g m).intrinsecParameters.trim allowed }

variable [Fintype M] [LinearOrder D] [Add D] [HMul D R D] [DecidableEq R]

/-- The body of `VpsimModule::refreshParameters` without its recursive calls: the new state, and
the predecessors to refresh when the exported parameters have changed. -/
def refreshStep (m : M) (g : Graph M D R) : Except Failure (Graph M D R × List M) := do
  let allowed ← getAllowedSpaces g m
  let new := refreshed g m allowed
  let newExportedParam ← new.exportOf
  if newExportedParam ≠ (g m).exportedParameters then
    .ok (Function.update g m { new with exportedParameters := newExportedParam }, (g m).predecessors)
  else .ok (Function.update g m new, [])

/-- `VpsimModule::refreshParameters`: with its default argument it first clears the exported
parameters of the predecessors. The calls made for the predecessors do not. -/
def refreshParameters (fuel : ℕ) (m : M) (g : Graph M D R) : Except Failure (Graph M D R) :=
  propagate refreshStep .outOfFuel fuel m (clearPredecessors g m)

end Graph

/-- A call of the configuration interface of the modules, for modifiers that have no others attached;
ranges given by the caller are well formed. -/
inductive Call (M D R : Type) where
  | addSuccessor (m s : M) (port : ℕ)
  | setParameter (m : M) (as : AddrSpace) (has : as.WellFormed) (param : ModuleParameter D R)
  | addParameterSetModifier (m : M) (modifier : ParameterSetModifier)

namespace Call

/-- The module on which the call is made. -/
def callee : Call M D R → M
  | .addSuccessor m _ _ => m
  | .setParameter m _ _ _ => m
  | .addParameterSetModifier m _ => m

variable [DecidableEq M]

/-- What the call does before it refreshes the parameters. -/
def prepare (g : Graph M D R) : Call M D R → Except Failure (Graph M D R)
  | .addSuccessor m s port =>
    match (g m).ports[port]? with
    | none => .error .rangeError
    | some ⟨some _, _⟩ => .error .invalidArgument
    | some ⟨none, effective⟩ =>
      .ok (Graph.addPredecessor
        (Function.update g m { g m with ports := (g m).ports.set port ⟨some s, effective⟩ }) s m)
  | .setParameter m as _ param =>
    .ok (Function.update g m
      { g m with intrinsecParameters := (g m).intrinsecParameters.setParameter as param })
  | .addParameterSetModifier m modifier =>
    .ok (Function.update g m { g m with modifier := (g m).modifier ++ [modifier] })

variable [Fintype M] [LinearOrder D] [Add D] [HMul D R D] [DecidableEq R]

/-- The call: its own change, then `refreshParameters`. -/
def run (fuel : ℕ) (g : Graph M D R) (c : Call M D R) : Except Failure (Graph M D R) := do
  let g ← c.prepare g
  Graph.refreshParameters fuel c.callee g

/-- A sequence of calls. -/
def runAll (fuel : ℕ) (g : Graph M D R) (calls : List (Call M D R)) : Except Failure (Graph M D R) :=
  calls.foldlM (run fuel) g

end Call

end Vpsim.Core
