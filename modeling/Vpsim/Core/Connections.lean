import Vpsim.Lib.Traversal
import Vpsim.Core.AllowedSpaces
import Vpsim.Core.Exports
import Mathlib.Data.Fintype.EquivFin

/-!
# Connections

Predecessors and successors are the two ends of the connections between modules, which calls make and
nothing removes. In an acyclic graph, going down or up along them ends.
-/

namespace Vpsim.Core.Graph

open Vpsim.Lib ParameterSet

variable {M D R : Type}

/-! ## Predecessors and successors -/

/-- A module is a predecessor of the modules that it is connected to. -/
def Wired (g : Graph M D R) : Prop := ∀ p s, p ∈ (g s).predecessors ↔ s ∈ (g p).successors

theorem mem_successors {v : VpsimModule M D R} {s : M} :
    s ∈ v.successors ↔ ∃ port ∈ v.ports, port.successor = some s := List.mem_filterMap

/-- A free port that is connected adds its successor. -/
theorem mem_successors_set {v : VpsimModule M D R} {port : ℕ} {effective : ParameterSet D R} {s t : M}
    (hport : v.ports[port]? = some ⟨none, effective⟩) :
    t ∈ ({ v with ports := v.ports.set port ⟨some s, effective⟩ } : VpsimModule M D R).successors ↔
      t ∈ v.successors ∨ t = s := by
  rw [mem_successors, mem_successors]
  constructor
  · rintro ⟨q, hq, ht⟩
    rcases List.mem_or_eq_of_mem_set hq with hq | rfl
    · exact Or.inl ⟨q, hq, ht⟩
    · exact Or.inr (Option.some.inj ht).symm
  · rintro (⟨q, hq, ht⟩ | rfl)
    · obtain ⟨i, hi⟩ := List.mem_iff_getElem?.mp hq
      have hne : port ≠ i := by
        rintro rfl
        rw [hport] at hi
        obtain rfl := Option.some.inj hi
        cases ht
      refine ⟨q, List.mem_of_getElem? (i := i) ?_, ht⟩
      dsimp only
      rw [List.getElem?_set_ne hne]
      exact hi
    · obtain ⟨hlt, -⟩ := List.getElem?_eq_some_iff.mp hport
      exact ⟨_, List.mem_set hlt _, rfl⟩

theorem wired_construct (config : M → ModuleConfig) :
    Wired fun m => ((config m).construct : VpsimModule M D R) := by
  intro p s
  refine iff_of_false List.not_mem_nil fun h => ?_
  obtain ⟨port, hport, hs⟩ := mem_successors.mp h
  rw [(List.mem_replicate.mp hport).2] at hs
  cases hs

theorem Wired.of_sameShape {g g' : Graph M D R} (hw : Wired g) (h : SameShape g g') : Wired g' := by
  intro p s
  rw [h.predecessors, h.successors]
  exact hw p s

/-- By predecessors a module reaches exactly those that reach it by successors. -/
theorem Wired.reaches_preds {g : Graph M D R} (hw : Wired g) {m q : M} :
    Reaches g.preds m q ↔ Reaches g.succs q m := by
  have hedge : Edge g.preds = Function.swap (Edge g.succs) := by
    funext a b
    exact propext (hw b a)
  unfold Reaches
  rw [hedge]
  exact Relation.reflTransGen_swap

theorem SameShape.succs {g g' : Graph M D R} (h : SameShape g g') : g'.succs = g.succs := funext h.successors

theorem Acyclic.of_sameShape {g g' : Graph M D R} (ha : g.Acyclic) (h : SameShape g g') : g'.Acyclic := by
  intro m s hs
  rw [h.succs]
  exact ha m s (h.successors m ▸ hs)

/-- `z` is a proper successor of `q`, over any number of modules. -/
def Below (g : Graph M D R) (z q : M) : Prop := Relation.TransGen (Edge g.succs) q z

theorem Acyclic.not_below {g : Graph M D R} (h : g.Acyclic) (q : M) : ¬ g.Below q q := by
  intro hq
  obtain ⟨s, hs, hback⟩ := Relation.TransGen.head'_iff.mp hq
  exact h q s hs hback

/-- Going down an acyclic graph ends. -/
theorem Acyclic.wellFounded [Finite M] {g : Graph M D R} (h : g.Acyclic) : WellFounded g.Below := by
  have htrans : IsTrans M g.Below := ⟨fun a b c hab hbc => Relation.TransGen.trans hbc hab⟩
  have hirrefl : Std.Irrefl g.Below := ⟨h.not_below⟩
  exact Finite.wellFounded_of_trans_of_irrefl _

end Vpsim.Core.Graph

/-! ## What a call does before its refresh -/

namespace Vpsim.Core.Call

open Vpsim.Lib ParameterSet Vpsim.Core.Graph

variable {M D R : Type} [DecidableEq M] {c : Call M D R} {g g' : Graph M D R}

/-- A field apart from the predecessors does not change when a predecessor is added. -/
theorem field_addPredecessor {α : Type} (f : VpsimModule M D R → α)
    (hf : ∀ v preds, f { v with predecessors := preds } = f v) (g : Graph M D R) (s p x : M) :
    f (addPredecessor g s p x) = f (g x) := by
  unfold addPredecessor
  split
  · rfl
  · exact field_update f (hf _ _) x

theorem mem_predecessors_addPredecessor {g : Graph M D R} {s p q x : M} :
    q ∈ (addPredecessor g s p x).predecessors ↔ q ∈ (g x).predecessors ∨ (x = s ∧ q = p) := by
  unfold addPredecessor
  split
  · rename_i hold
    constructor
    · exact Or.inl
    · rintro (h | ⟨rfl, rfl⟩)
      · exact h
      · exact hold
  · by_cases hx : x = s
    · rw [hx, Function.update_self]
      simp
    · rw [Function.update_of_ne hx]
      simp [hx]

/-- Before its refresh a call changes no export, and no ports, own parameters or modifiers of other
modules. -/
theorem prepare_fields (h : c.prepare g = .ok g') :
    (∀ x, (g' x).exportedParameters = (g x).exportedParameters) ∧
      ∀ x, x ≠ c.callee → (g' x).ports = (g x).ports ∧
        (g' x).intrinsecParameters = (g x).intrinsecParameters ∧ (g' x).modifier = (g x).modifier := by
  cases c with
  | addSuccessor m s port =>
    obtain ⟨effective, -, rfl⟩ := prepare_addSuccessor_eq_ok h
    constructor
    · intro x
      refine (field_addPredecessor VpsimModule.exportedParameters (fun _ _ => rfl) _ s m x).trans ?_
      exact field_update VpsimModule.exportedParameters (by rfl) x
    · intro x hx
      change x ≠ m at hx
      refine ⟨?_, ?_, ?_⟩
      · refine (field_addPredecessor VpsimModule.ports (fun _ _ => rfl) _ s m x).trans ?_
        rw [Function.update_of_ne hx]
      · refine (field_addPredecessor VpsimModule.intrinsecParameters (fun _ _ => rfl) _ s m x).trans ?_
        rw [Function.update_of_ne hx]
      · refine (field_addPredecessor VpsimModule.modifier (fun _ _ => rfl) _ s m x).trans ?_
        rw [Function.update_of_ne hx]
  | setParameter m as has param =>
    rw [← Except.ok.inj h]
    refine ⟨field_update VpsimModule.exportedParameters (by rfl), fun x hx => ?_⟩
    change x ≠ m at hx
    rw [Function.update_of_ne hx]
    exact ⟨rfl, rfl, rfl⟩
  | addParameterSetModifier m modifier =>
    rw [← Except.ok.inj h]
    refine ⟨field_update VpsimModule.exportedParameters (by rfl), fun x hx => ?_⟩
    change x ≠ m at hx
    rw [Function.update_of_ne hx]
    exact ⟨rfl, rfl, rfl⟩

/-- The calls that attach no modifier leave the modifiers alone. -/
theorem prepare_modifier (hc : ∀ m modifier, c ≠ .addParameterSetModifier m modifier) (h : c.prepare g = .ok g')
    (x : M) : (g' x).modifier = (g x).modifier := by
  cases c with
  | addSuccessor m s port =>
    obtain ⟨effective, -, rfl⟩ := prepare_addSuccessor_eq_ok h
    refine (field_addPredecessor VpsimModule.modifier (fun _ _ => rfl) _ s m x).trans ?_
    exact field_update VpsimModule.modifier (by rfl) x
  | setParameter m as has param =>
    rw [← Except.ok.inj h]
    exact field_update VpsimModule.modifier (by rfl) x
  | addParameterSetModifier m modifier => exact absurd rfl (hc m modifier)

/-- The own change of a call does not run out of depth. -/
theorem prepare_ne_outOfFuel {e : Failure} (h : c.prepare g = .error e) : e ≠ .outOfFuel := by
  rintro rfl
  cases c with
  | addSuccessor m s port =>
    unfold prepare at h
    dsimp only at h
    split at h <;> cases h
  | setParameter m as has param => cases h
  | addParameterSetModifier m modifier => cases h

/-- Before its refresh a call makes at most its own connection, in both directions. -/
theorem prepare_connections (h : c.prepare g = .ok g') :
    (∀ p s, p ∈ (g' s).predecessors ↔ p ∈ (g s).predecessors ∨ ∃ port, c = .addSuccessor p s port) ∧
      ∀ p s, s ∈ (g' p).successors ↔ s ∈ (g p).successors ∨ ∃ port, c = .addSuccessor p s port := by
  cases c with
  | addSuccessor m s port =>
    obtain ⟨effective, hport, rfl⟩ := prepare_addSuccessor_eq_ok h
    constructor
    · intro p x
      rw [mem_predecessors_addPredecessor, field_update VpsimModule.predecessors (by rfl) x]
      refine or_congr_right ⟨?_, ?_⟩
      · rintro ⟨rfl, rfl⟩
        exact ⟨port, rfl⟩
      · rintro ⟨port', heq⟩
        injection heq with hm hs
        exact ⟨hs.symm, hm.symm⟩
    · intro p x
      rw [field_addPredecessor VpsimModule.successors (fun _ _ => rfl) _ s m p]
      by_cases hp : p = m
      · subst hp
        rw [Function.update_self, mem_successors_set hport]
        refine or_congr_right ⟨?_, ?_⟩
        · rintro rfl
          exact ⟨port, rfl⟩
        · rintro ⟨port', heq⟩
          injection heq with _ hs
          exact hs.symm
      · rw [Function.update_of_ne hp]
        refine (or_iff_left ?_).symm
        rintro ⟨port', heq⟩
        injection heq with hm
        exact hp hm.symm
  | setParameter m as has param =>
    rw [← Except.ok.inj h]
    refine ⟨fun p s => ?_, fun p s => ?_⟩
    · rw [field_update VpsimModule.predecessors (by rfl) s]
      simp
    · rw [field_update VpsimModule.successors (by rfl) p]
      simp
  | addParameterSetModifier m modifier =>
    rw [← Except.ok.inj h]
    refine ⟨fun p s => ?_, fun p s => ?_⟩
    · rw [field_update VpsimModule.predecessors (by rfl) s]
      simp
    · rw [field_update VpsimModule.successors (by rfl) p]
      simp

end Vpsim.Core.Call
