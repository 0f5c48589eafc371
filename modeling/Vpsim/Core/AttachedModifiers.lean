import Vpsim.Lib.LinkedCells
import Vpsim.Core.VpsimModule

/-!
# Attached modifiers

A modifier object points to the one that has been attached to it. `clone` copies an object with this
pointer, so a module that is given a modifier shares the objects attached to it with the caller, and
with every other module that is given the same modifier. What is attached to the modifier of one of these
modules later is attached for all of them, and only the first one refreshes its parameters.
-/

namespace Vpsim.Core

open Vpsim.Lib

/-- A `ParameterSetModifier`: the value is what it does itself, the next object its `mPreviousModifier`. -/
abbrev ModifierObject := Cell ParameterSetModifier

/-- The modules, and the modifier objects that can be attached to. The object `mModifier` of a module is
neutral and nothing points to it, so of this object only `mPreviousModifier` is kept, in `attached`. The
`modifier` of a module in the graph lists what its chain of objects does. -/
structure Assembly (M D R : Type) where
  graph : Graph M D R
  attached : M → Option ℕ
  objects : List ModifierObject

variable {M D R : Type}

namespace Assembly

/-- The modules after their construction, and the objects of the callers. -/
def start (config : M → ModuleConfig) (objects : List ModifierObject) : Assembly M D R where
  graph m := (config m).construct
  attached _ := none
  objects := objects

/-- What the modifiers of a module do, from the one attached first; `none` if their chain leads back to
itself. -/
def modifiersOf (s : Assembly M D R) (m : M) : Option (List ParameterSetModifier) :=
  chainValues s.objects (s.attached m)

variable [DecidableEq M]

/-- A copy of `modifier`, with the same `mPreviousModifier`, becomes the previous one of the last object of the
chain of `m`, or of its neutral object if the chain is empty. -/
def attachAt (s : Assembly M D R) (m : M) (modifier : ModifierObject) : Option ℕ → Assembly M D R
  | none =>
    { s with
      attached := Function.update s.attached m (some s.objects.length)
      objects := s.objects ++ [modifier] }
  | some last => { s with objects := link s.objects last modifier }

/-- `ParameterSetModifier::attach` on the modifier of `m`. -/
def attach (s : Assembly M D R) (m : M) (modifier : ModifierObject) : Option (Assembly M D R) :=
  (places s.objects (s.attached m)).map fun chain => s.attachAt m modifier chain.getLast?

omit [DecidableEq M] in
/-- The modules with the modifiers that their chains of objects now make. -/
def relink (s : Assembly M D R) : Assembly M D R :=
  { s with graph := fun m => { s.graph m with modifier := (s.modifiersOf m).getD [] } }

end Assembly

/-- How a call can stop: with an exception, or by going round a chain of modifiers for ever. -/
inductive Stop where
  | throws (e : Failure)
  | endless
deriving DecidableEq, Repr

/-- A call of the configuration interface, where a modifier can have others attached to it; ranges given
by the caller are well formed. -/
inductive ModuleCall (M D R : Type) where
  | addSuccessor (m s : M) (port : ℕ)
  | setParameter (m : M) (as : AddrSpace) (has : as.WellFormed) (param : ModuleParameter D R)
  | addParameterSetModifier (m : M) (modifier : ModifierObject)

namespace ModuleCall

/-- The module on which the call is made. -/
def callee : ModuleCall M D R → M
  | .addSuccessor m _ _ => m
  | .setParameter m _ _ _ => m
  | .addParameterSetModifier m _ => m

/-- The assembly after its graph has been computed. -/
def withGraph (s : Assembly M D R) : Except Failure (Graph M D R) → Except Stop (Assembly M D R)
  | .ok g => .ok { s with graph := g }
  | .error e => .error (.throws e)

variable [DecidableEq M]

/-- What the call does before it refreshes the parameters. -/
def prepare (s : Assembly M D R) : ModuleCall M D R → Except Stop (Assembly M D R)
  | .addSuccessor m s' port => withGraph s ((Call.addSuccessor m s' port).prepare s.graph)
  | .setParameter m as has param => withGraph s ((Call.setParameter m as has param).prepare s.graph)
  | .addParameterSetModifier m modifier =>
    match s.attach m modifier with
    | none => .error .endless
    | some s => if (s.modifiersOf m).isSome then .ok s.relink else .error .endless

variable [Fintype M] [LinearOrder D] [Add D] [HMul D R D] [DecidableEq R]

/-- The call: its own change, then `refreshParameters`. -/
def run (fuel : ℕ) (s : Assembly M D R) (c : ModuleCall M D R) : Except Stop (Assembly M D R) := do
  let s ← c.prepare s
  withGraph s (Graph.refreshParameters fuel c.callee s.graph)

end ModuleCall

/-! ## What is attached -/

namespace Assembly

variable {s s' : Assembly M D R} {m : M} {modifier : ModifierObject}

/-- Every module has the modifiers that its chain of objects makes, and this chain ends. -/
def Linked (s : Assembly M D R) : Prop := ∀ m, s.modifiersOf m = some (s.graph m).modifier

theorem linked_start (config : M → ModuleConfig) (objects : List ModifierObject) :
    (start config objects : Assembly M D R).Linked := fun _ => chainValues_of_path .nil

/-- The chains of two modules meet in an object. -/
def Share (s : Assembly M D R) (i j : M) : Prop :=
  ∃ chain chain' object, Path s.objects (s.attached i) chain ∧ Path s.objects (s.attached j) chain' ∧
    object ∈ chain ∧ object ∈ chain'

variable [DecidableEq M]

theorem graph_attachAt (last : Option ℕ) : (s.attachAt m modifier last).graph = s.graph := by
  cases last <;> rfl

theorem graph_attach (h : s.attach m modifier = some s') : s'.graph = s.graph := by
  obtain ⟨chain, -, rfl⟩ := Option.map_eq_some_iff.mp h
  exact graph_attachAt _

/-- The modifier is attached to `m` alone if nothing has been attached before. -/
theorem modifiersOf_attachAt_none (hlinked : s.Linked) (hm : s.attached m = none) {k : List ℕ}
    (hk : Path (s.objects ++ [modifier]) modifier.next k) (j : M) :
    (s.attachAt m modifier none).modifiersOf j = if j = m then
      some ((s.graph m).modifier ++ modifier.value :: cellValues (s.objects ++ [modifier]) k)
    else some (s.graph j).modifier := by
  have hnew : (s.objects ++ [modifier])[s.objects.length]? = some modifier := List.getElem?_concat_length
  change chainValues (s.objects ++ [modifier]) (Function.update s.attached m (some s.objects.length) j) = _
  split
  · rename_i hj
    have hempty : (s.graph m).modifier = [] := by
      have hself := hlinked m
      rw [modifiersOf, hm] at hself
      exact (Option.some.inj (hself.symm.trans (chainValues_of_path .nil)))
    rw [hj, Function.update_self, chainValues_of_path (.cons hnew hk), hempty, cellValues, List.filterMap_cons, hnew]
    rfl
  · rename_i hj
    obtain ⟨l, hl, hvalues⟩ := exists_path_of_chainValues (hlinked j)
    rw [Function.update_of_ne hj, chainValues_of_path hl.append, cellValues_append_cell hl.lt_length, hvalues]

/-- The modifier is attached to all modules whose chains have this end, and to no others. -/
theorem modifiersOf_attachAt_some (hlinked : s.Linked) {last : ℕ} {cell : ModifierObject}
    (hcell : s.objects[last]? = some cell) (hstop : cell.next = none) {k : List ℕ}
    (hk : Path (link s.objects last modifier) modifier.next k) {j : M} {chain : List ℕ}
    (hj : Path s.objects (s.attached j) chain) :
    (s.attachAt m modifier (some last)).modifiersOf j = if last ∈ chain then
      some ((s.graph j).modifier ++ modifier.value :: cellValues (link s.objects last modifier) k)
    else some (s.graph j).modifier := by
  have hvalues : cellValues s.objects chain = (s.graph j).modifier :=
    Option.some.inj ((chainValues_of_path hj).symm.trans (hlinked j))
  change chainValues (link s.objects last modifier) (s.attached j) = _
  split
  · rename_i hin
    have hnew : cellValues (link s.objects last modifier) (s.objects.length :: k) =
        modifier.value :: cellValues (link s.objects last modifier) k := by
      rw [cellValues, List.filterMap_cons, link_getElem?_new]
      rfl
    rw [chainValues_of_path (hj.link_of_mem hin hcell hstop hk), cellValues_append, cellValues_link hj.lt_length,
      hvalues, hnew]
  · rename_i hout
    rw [chainValues_of_path (hj.link_of_not_mem hout), cellValues_link hj.lt_length, hvalues]

/-- What is attached to `m` is attached to the modules whose chains end as that of `m`, and to no others: the
modifier, and what has been attached to it. -/
theorem attach_eq_some (hlinked : s.Linked) (h : s.attach m modifier = some s')
    (hends : (s'.modifiersOf m).isSome) :
    ∃ added, chainValues s'.objects modifier.next = some added ∧
      s'.modifiersOf m = some ((s.graph m).modifier ++ modifier.value :: added) ∧
      ∀ j, s'.modifiersOf j = some (s.graph j).modifier ∨ (j = m ∨ s.Share m j) ∧
        s'.modifiersOf j = some ((s.graph j).modifier ++ modifier.value :: added) := by
  obtain ⟨chain, hchain, rfl⟩ := Option.map_eq_some_iff.mp h
  rw [places_eq_some] at hchain
  obtain ⟨values, hends⟩ := Option.isSome_iff_exists.mp hends
  obtain ⟨chain', hchain', -⟩ := exists_path_of_chainValues hends
  cases hlast : chain.getLast? with
  | none =>
    obtain rfl := List.getLast?_eq_none_iff.mp hlast
    have hm : s.attached m = none := by
      cases hp : s.attached m with
      | none => rfl
      | some p =>
        rw [hp] at hchain
        cases hchain
    have hnew : (s.objects ++ [modifier])[s.objects.length]? = some modifier := List.getElem?_concat_length
    have hpath : Path (s.objects ++ [modifier]) (some s.objects.length) chain' := by
      rw [hlast] at hchain'
      exact (Function.update_self m (some s.objects.length) s.attached) ▸ hchain'
    cases hpath with
    | @cons _ c k hi rest =>
      rw [hnew] at hi
      obtain rfl := Option.some.inj hi
      have hall := modifiersOf_attachAt_none hlinked hm rest
      refine ⟨_, chainValues_of_path rest, (hall m).trans (if_pos rfl), fun j => ?_⟩
      by_cases hj : j = m
      · subst hj
        exact .inr ⟨.inl rfl, (hall j).trans (if_pos rfl)⟩
      · exact .inl ((hall j).trans (if_neg hj))
  | some last =>
    rw [hlast] at hchain'
    obtain ⟨cell, hcell, hstop⟩ := hchain.next_getLast hlast
    have hmem : last ∈ chain := List.mem_of_getLast? hlast
    obtain ⟨k, hk⟩ := hchain.of_link hmem hcell hchain'
    refine ⟨_, chainValues_of_path hk,
      (modifiersOf_attachAt_some hlinked hcell hstop hk hchain).trans (if_pos hmem), fun j => ?_⟩
    obtain ⟨l, hl, -⟩ := exists_path_of_chainValues (hlinked j)
    have hj := modifiersOf_attachAt_some (m := m) hlinked hcell hstop hk hl
    by_cases hin : last ∈ l
    · exact .inr ⟨.inr ⟨chain, l, last, hchain, hl, hmem, hin⟩, hj.trans (if_pos hin)⟩
    · exact .inl (hj.trans (if_neg hin))

/-- A modifier without attached ones does not close a chain on itself. -/
theorem exists_attach (hlinked : s.Linked) (hnone : modifier.next = none) :
    ∃ s', s.attach m modifier = some s' ∧ (s'.modifiersOf m).isSome := by
  obtain ⟨chain, hchain, -⟩ := exists_path_of_chainValues (hlinked m)
  have hend : ∀ cells : List ModifierObject, Path cells modifier.next [] := fun cells => hnone ▸ .nil
  refine ⟨_, Option.map_eq_some_iff.mpr ⟨chain, places_eq_some.mpr hchain, rfl⟩, ?_⟩
  cases hlast : chain.getLast? with
  | none =>
    obtain rfl := List.getLast?_eq_none_iff.mp hlast
    have hpath : Path (s.objects ++ [modifier]) (Function.update s.attached m (some s.objects.length) m)
        [s.objects.length] := by
      rw [Function.update_self]
      exact .cons List.getElem?_concat_length (hend _)
    exact Option.isSome_iff_exists.mpr ⟨_, chainValues_of_path hpath⟩
  | some last =>
    obtain ⟨cell, hcell, hstop⟩ := hchain.next_getLast hlast
    have hpath := hchain.link_of_mem (List.mem_of_getLast? hlast) hcell hstop (hend (link s.objects last modifier))
    exact Option.isSome_iff_exists.mpr ⟨_, chainValues_of_path hpath⟩

end Assembly

/-- A modifier without attached ones, given to a module that shares no object with another one, is attached to
this module alone. -/
theorem ModuleCall.prepare_of_apart [DecidableEq M] {s : Assembly M D R} {m : M} {modifier : ModifierObject}
    (hlinked : s.Linked) (hnone : modifier.next = none) (hapart : ∀ j, j ≠ m → ¬ s.Share m j) :
    ∃ s₁, (ModuleCall.addParameterSetModifier m modifier).prepare s = .ok s₁ ∧
      (Call.addParameterSetModifier m modifier.value).prepare s.graph = .ok s₁.graph := by
  obtain ⟨s', hattach, hends⟩ := Assembly.exists_attach (m := m) hlinked hnone
  obtain ⟨added, hadded, hself, hothers⟩ := Assembly.attach_eq_some hlinked hattach hends
  have hnil : added = [] := by
    rw [hnone] at hadded
    exact Option.some.inj (hadded.symm.trans (chainValues_of_path .nil))
  subst hnil
  refine ⟨s'.relink, ?_, congrArg Except.ok (funext fun j => ?_)⟩
  · unfold prepare
    dsimp only
    rw [hattach]
    exact if_pos hends
  · change _ = { s'.graph j with modifier := (s'.modifiersOf j).getD [] }
    rw [Assembly.graph_attach hattach]
    by_cases hj : j = m
    · subst hj
      rw [Function.update_self, hself]
      rfl
    · rw [Function.update_of_ne hj]
      rcases hothers j with hsame | ⟨hshare, -⟩
      · rw [hsame]
        rfl
      · exact absurd (hshare.resolve_left hj) (hapart j hj)

end Vpsim.Core
