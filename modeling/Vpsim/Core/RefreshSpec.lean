import Vpsim.Lib.Traversal
import Vpsim.Core.VpsimModule

/-!
# What one refresh reads and writes

The shape of a graph (who is connected to whom, and the constant data of the modules) decides
which address spaces a module may use and which modules a call clears; a refresh does not change
it. The lemmas describe the clearing of the predecessors and the single step of
`refreshParameters`.
-/

namespace Vpsim.Core.Graph

open Vpsim.Lib

/-- The run returns, with a result that passes the test. -/
def returnsWith {α : Type} (p : α → Bool) : Except Failure α → Bool
  | .ok a => p a
  | .error _ => false

theorem exists_ok_of_returnsWith {α : Type} {r : Except Failure α} {p : α → Bool} (h : returnsWith p r = true) :
    ∃ a, r = .ok a ∧ p a = true := by
  cases r with
  | ok a => exact ⟨a, rfl, h⟩
  | error e => cases h

variable {M D R : Type}

/-- The two graphs differ at most in the parameters of their modules. -/
structure SameShape (g g' : Graph M D R) : Prop where
  predecessors : ∀ m, (g' m).predecessors = (g m).predecessors
  successors : ∀ m, (g' m).successors = (g m).successors
  modifier : ∀ m, (g' m).modifier = (g m).modifier
  ownAddrSpace : ∀ m, (g' m).ownAddrSpace = (g m).ownAddrSpace
  moduleType : ∀ m, (g' m).moduleType = (g m).moduleType

theorem SameShape.refl (g : Graph M D R) : SameShape g g :=
  ⟨fun _ => rfl, fun _ => rfl, fun _ => rfl, fun _ => rfl, fun _ => rfl⟩

theorem SameShape.trans {g g' g'' : Graph M D R} (h : SameShape g g') (h' : SameShape g' g'') :
    SameShape g g'' where
  predecessors m := (h'.predecessors m).trans (h.predecessors m)
  successors m := (h'.successors m).trans (h.successors m)
  modifier m := (h'.modifier m).trans (h.modifier m)
  ownAddrSpace m := (h'.ownAddrSpace m).trans (h.ownAddrSpace m)
  moduleType m := (h'.moduleType m).trans (h.moduleType m)

/-- Other exported parameters do not change the shape. -/
theorem SameShape.of_exports {g g' : Graph M D R}
    (h : ∀ x, ∃ exported, g' x = { g x with exportedParameters := exported }) : SameShape g g' where
  predecessors x := by
    obtain ⟨exported, hx⟩ := h x
    rw [hx]
  successors x := by
    obtain ⟨exported, hx⟩ := h x
    rw [hx]
    rfl
  modifier x := by
    obtain ⟨exported, hx⟩ := h x
    rw [hx]
  ownAddrSpace x := by
    obtain ⟨exported, hx⟩ := h x
    rw [hx]
  moduleType x := by
    obtain ⟨exported, hx⟩ := h x
    rw [hx]

/-- The predecessors of a module. -/
def preds (g : Graph M D R) (m : M) : List M := (g m).predecessors

/-- The module `x` of the graph with nothing exported. -/
def cleared (g : Graph M D R) (x : M) : VpsimModule M D R :=
  { g x with exportedParameters := ParameterSet.empty }

variable [DecidableEq M]

/-- What the new state of a module has in common with the old one, the graph has everywhere. -/
theorem field_update {α : Type} (f : VpsimModule M D R → α) {g : Graph M D R} {x : M} {v : VpsimModule M D R}
    (h : f v = f (g x)) (y : M) : f (Function.update g x v y) = f (g y) := by
  by_cases hy : y = x
  · rw [hy, Function.update_self]
    exact h
  · rw [Function.update_of_ne hy]

/-- The graph in which the modules of `visited` that are not in `base` export nothing. -/
def clearedOn (g : Graph M D R) (visited base : List M) : Graph M D R := fun x =>
  if x ∈ visited ∧ x ∉ base then g.cleared x else g x

theorem preds_clearExport (g : Graph M D R) (m : M) : (clearExport g m).preds = g.preds := by
  funext x
  by_cases hx : x = m
  · subst hx
    simp [preds, clearExport]
  · simp [preds, clearExport, Function.update_of_ne hx]

theorem preds_clearedOn (g : Graph M D R) (visited base : List M) : (g.clearedOn visited base).preds = g.preds := by
  funext x
  unfold preds clearedOn cleared
  split_ifs <;> rfl

/-- Clearing one more module and what the traversal from it adds to the list clears the whole list. -/
theorem clearedOn_clearExport (g : Graph M D R) {c visited base : List M} {p : M} (hp : p ∉ c)
    (hbase : base ⊆ c) (hpv : p ∈ visited) (hold : c ⊆ visited) :
    (clearExport (g.clearedOn c base) p).clearedOn visited (c ++ [p]) = g.clearedOn visited base := by
  funext x
  by_cases hxp : x = p
  · subst hxp
    have hxbase : x ∉ base := fun h => hp (hbase h)
    simp [clearedOn, clearExport, cleared, hp, hpv, hxbase]
  · by_cases hxc : x ∈ c
    · simp [clearedOn, clearExport, Function.update_of_ne hxp, hxc, hold hxc]
    · have hxbase : x ∉ base := fun h => hxc (hbase h)
      simp [clearedOn, clearExport, cleared, hxc, hxp, hxbase]

/-- A call on `m` loops over its successors, then adds its own space and applies its modifiers. -/
theorem getAllowedSpacesRec_succ (g : Graph M D R) (fuel : ℕ) (m : M) (called : List M) :
    getAllowedSpacesRec g (fuel + 1) m called =
      ((g m).successors.foldlM (fun (r : List M × SpaceSet) s =>
        if s ∈ r.1 then Except.ok r
        else (getAllowedSpacesRec g fuel s r.1).bind fun res =>
          .ok (res.1, res.2.members.foldl (fun set as => set.insert as) r.2))
        (called ++ [m], SpaceSet.empty)).bind fun r =>
      (ParameterSetModifier.applySpaces
        (if (g m).moduleType = .memoryMapped then r.2.insert (g m).ownAddrSpace else r.2)
        (g m).modifier).bind fun allowed => .ok (r.1, allowed) := rfl

/-- The allowed spaces depend on the shape only. -/
theorem getAllowedSpacesRec_congr {g g' : Graph M D R} (h : SameShape g g') (fuel : ℕ) :
    getAllowedSpacesRec g' fuel = getAllowedSpacesRec g fuel := by
  induction fuel with
  | zero => rfl
  | succ fuel ih =>
    funext m called
    simp only [getAllowedSpacesRec, ih, h.successors, h.modifier, h.ownAddrSpace, h.moduleType]

variable [Fintype M]

/-- The traversal made by `clearPredecessors`: it goes through the predecessors and clears every
module that it reaches, but not the one it starts from. -/
theorem clearPredecessorsRec_eq {n : ℕ} {m : M} {called : List M} (g : Graph M D R) (hnodup : called.Nodup)
    (hm : m ∉ called) (hfuel : Fintype.card M ≤ n + called.length) :
    clearPredecessorsRec n m (called, g) =
      (visit g.preds n m called, g.clearedOn (visit g.preds n m called) (called ++ [m])) := by
  induction n generalizing m called g with
  | zero =>
    have hlen := List.Nodup.length_le_card (List.nodup_cons.mpr ⟨hm, hnodup⟩)
    rw [List.length_cons] at hlen
    omega
  | succ n ih =>
    have hnodup' : (called ++ [m]).Nodup := List.nodup_append.mpr
      ⟨hnodup, List.nodup_singleton m, fun a ha b hb => by
        rw [List.mem_singleton.mp hb]
        exact fun h => hm (h ▸ ha)⟩
    -- The loop over the predecessors, from any list `c` that the calls so far have led to.
    have hloop : ∀ (l c : List M), c.Nodup → called ++ [m] ⊆ c → called.length + 1 ≤ c.length →
        l.foldl (fun (r : List M × Graph M D R) pred =>
          if pred ∈ r.1 then r else clearPredecessorsRec n pred (r.1, clearExport r.2 pred))
          (c, g.clearedOn c (called ++ [m])) =
        (l.foldl (fun c s => if s ∈ c then c else visit g.preds n s c) c,
          g.clearedOn (l.foldl (fun c s => if s ∈ c then c else visit g.preds n s c) c) (called ++ [m])) := by
      intro l
      induction l with
      | nil => exact fun c _ _ _ => rfl
      | cons p l ihl =>
        intro c hc hsub hlen
        rw [List.foldl_cons, List.foldl_cons]
        by_cases hp : p ∈ c
        · simp only [hp, if_true]
          exact ihl c hc hsub hlen
        · simp only [hp, if_false]
          have hvis : Visits g.preds (· = p) c (visit g.preds n p c) := visits_visit hc hp (by omega)
          rw [ih _ hc hp (by omega), preds_clearExport, preds_clearedOn,
            clearedOn_clearExport g hp hsub (hvis.start_mem p rfl) hvis.old]
          exact ihl _ hvis.nodup (fun x hx => hvis.old (hsub hx)) (hlen.trans (hvis.length_le hc))
    have hstart : g.clearedOn (called ++ [m]) (called ++ [m]) = g := by
      funext x
      unfold clearedOn
      rw [if_neg fun h => h.2 h.1]
    rw [clearPredecessorsRec, visit, ← hloop _ _ hnodup' (fun _ h => h) (by simp), hstart]
    rfl

/-- `clearPredecessors` clears the modules from which `m` can be reached, `m` itself apart. -/
theorem clearPredecessors_eq (g : Graph M D R) (m : M) :
    clearPredecessors g m = g.clearedOn (visit g.preds (Fintype.card M) m []) [m] := by
  rw [clearPredecessors, clearPredecessorsRec_eq g List.nodup_nil List.not_mem_nil (Nat.le_add_right _ _)]
  rfl

/-- A module that is not a predecessor of any module is not cleared. -/
theorem clearPredecessors_of_not_pred {g : Graph M D R} {m u : M} (hu : ∀ x, u ∉ (g x).predecessors) :
    clearPredecessors g m u = g u := by
  rw [clearPredecessors_eq, clearedOn, if_neg]
  rintro ⟨hvisited, hne⟩
  rcases Relation.ReflTransGen.cases_tail (mem_visit_iff.mp hvisited) with rfl | ⟨x, -, hx⟩
  · exact hne List.mem_cons_self
  · exact hu x hx

theorem clearPredecessors_self (g : Graph M D R) (m : M) : clearPredecessors g m m = g m := by
  rw [clearPredecessors_eq, clearedOn, if_neg]
  exact fun h => h.2 List.mem_cons_self

/-- Clearing changes the exported parameters only. -/
theorem clearPredecessors_apply (g : Graph M D R) (m x : M) :
    ∃ exported, clearPredecessors g m x = { g x with exportedParameters := exported } := by
  rw [clearPredecessors_eq, clearedOn]
  split_ifs
  · exact ⟨ParameterSet.empty, rfl⟩
  · exact ⟨(g x).exportedParameters, rfl⟩

theorem sameShape_clearPredecessors (g : Graph M D R) (m : M) : SameShape g (clearPredecessors g m) :=
  SameShape.of_exports (clearPredecessors_apply g m)

/-! ## One step -/

omit [DecidableEq M] [Fintype M] in
/-- The connected successors are those of the old ports. -/
theorem successors_refreshed [LinearOrder D] [DecidableEq R] (g : Graph M D R) (m : M) (allowed : SpaceSet) :
    (refreshed g m allowed).successors = (g m).successors := by
  unfold refreshed VpsimModule.successors
  dsimp only
  rw [List.filterMap_map]
  apply List.filterMap_congr
  intro port _
  cases port with
  | mk successor effective =>
    cases successor with
    | none => rfl
    | some s => rfl

omit [DecidableEq M] [Fintype M] in
/-- A connected port of a refreshed module holds what its successor exports. -/
theorem effective_refreshed [LinearOrder D] [DecidableEq R] {g : Graph M D R} {m : M} {allowed : SpaceSet}
    {port : OutPort M D R} (hport : port ∈ (refreshed g m allowed).ports) {s : M} (hs : port.successor = some s) :
    port.effectiveParameters = (g s).exportedParameters := by
  obtain ⟨⟨successor, effective⟩, -, rfl⟩ := List.mem_map.mp hport
  cases successor with
  | none => cases hs
  | some t =>
    obtain rfl := Option.some.inj hs
    rfl

theorem getAllowedSpaces_congr {g g' : Graph M D R} (h : SameShape g g') (m : M) :
    getAllowedSpaces g' m = getAllowedSpaces g m := by
  rw [getAllowedSpaces, getAllowedSpaces, getAllowedSpacesRec_congr h]

variable [LinearOrder D] [Add D] [HMul D R D] [DecidableEq R]

/-- A step in which nothing throws: the module has read its successors, trimmed its own
parameters and exports what its fields define; its predecessors follow if the export changed. -/
theorem refreshStep_of_ok {g : Graph M D R} {m : M} {allowed : SpaceSet} {exported : ParameterSet D R}
    (ha : getAllowedSpaces g m = .ok allowed) (he : (refreshed g m allowed).exportOf = .ok exported) :
    refreshStep m g =
      .ok (Function.update g m { refreshed g m allowed with exportedParameters := exported },
        if exported ≠ (g m).exportedParameters then (g m).predecessors else []) := by
  simp only [refreshStep, bind, Except.bind, ha, he]
  split_ifs with hne
  · rfl
  · rw [not_not] at hne
    rw [hne]
    rfl

/-- A step completes only if neither the allowed spaces nor the modifiers throw. -/
theorem refreshStep_eq_ok {g g' : Graph M D R} {m : M} {next : List M}
    (h : refreshStep m g = .ok (g', next)) :
    ∃ allowed exported, getAllowedSpaces g m = .ok allowed ∧
      (refreshed g m allowed).exportOf = .ok exported ∧
      g' = Function.update g m { refreshed g m allowed with exportedParameters := exported } ∧
      next = if exported ≠ (g m).exportedParameters then (g m).predecessors else [] := by
  cases ha : getAllowedSpaces g m with
  | error e =>
    simp only [refreshStep, bind, Except.bind, ha] at h
    cases h
  | ok allowed =>
    cases he : (refreshed g m allowed).exportOf with
    | error e =>
      simp only [refreshStep, bind, Except.bind, ha, he] at h
      cases h
    | ok exported =>
      rw [refreshStep_of_ok ha he] at h
      obtain ⟨rfl, rfl⟩ := Prod.ext_iff.mp (Except.ok.inj h)
      exact ⟨allowed, exported, rfl, he, rfl, rfl⟩

end Vpsim.Core.Graph
