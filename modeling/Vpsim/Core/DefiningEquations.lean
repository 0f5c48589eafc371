import Vpsim.Lib.Run
import Vpsim.Core.Settling
import Vpsim.Core.AttachedModifiers

/-!
# The defining equations of the parameters

After a call the modules satisfy their defining equations exactly when its refresh recomputes what it
clears. In an acyclic graph the recursion of every refresh ends.
-/

namespace Vpsim.Core.Graph

open Vpsim.Lib ParameterSet

variable {M D R : Type} [DecidableEq M] [Fintype M] [LinearOrder D] [Add D] [HMul D R D] [DecidableEq R]
  {g t : Graph M D R}

/-! ## The end of the recursion -/

section Depth

omit [LinearOrder D] [Add D] [HMul D R D] [DecidableEq R]

/-- The address spaces are found without running out of depth, whatever the shape of the graph. -/
theorem getAllowedSpacesRec_error {n : ℕ} {x : M} {called : List M} (hnodup : called.Nodup) (hx : x ∉ called)
    (hfuel : Fintype.card M ≤ n + called.length) :
    (∀ r, getAllowedSpacesRec g n x called = .ok r → r.1.Nodup ∧ called ++ [x] ⊆ r.1) ∧
      ∀ e, getAllowedSpacesRec g n x called = .error e → e = .overflowError := by
  induction n generalizing x called with
  | zero =>
    have hlen := List.Nodup.length_le_card (List.nodup_cons.mpr ⟨hx, hnodup⟩)
    rw [List.length_cons] at hlen
    omega
  | succ n ih =>
    have hnodup' : (called ++ [x]).Nodup := List.nodup_append.mpr
      ⟨hnodup, List.nodup_singleton x, fun a ha b hb => by
        rw [List.mem_singleton.mp hb]
        exact fun h => hx (h ▸ ha)⟩
    have hlength {c : List M} (hsub : called ++ [x] ⊆ c) : called.length + 1 ≤ c.length := by
      have hle := (hnodup'.subperm hsub).length_le
      rw [List.length_append] at hle
      exact hle
    have hloop := foldlM_spec (P := fun r : List M × SpaceSet => r.1.Nodup ∧ called ++ [x] ⊆ r.1)
      (Q := fun e : Failure => e = .overflowError) (l := (g x).successors)
      (f := fun r s => if s ∈ r.1 then Except.ok r
        else (getAllowedSpacesRec g n s r.1).bind fun res =>
          .ok (res.1, res.2.members.foldl (fun set as => set.insert as) r.2))
      (s := (called ++ [x], SpaceSet.empty)) ?_ ?_ ⟨hnodup', fun _ h => h⟩
    · rw [getAllowedSpacesRec_succ]
      constructor
      · intro r h
        obtain ⟨r', hr', h⟩ := bind_eq_ok h
        obtain ⟨allowed, -, h⟩ := bind_eq_ok h
        rw [← Except.ok.inj h]
        exact hloop.1 r' hr'
      · intro e h
        rcases bind_eq_error h with h | ⟨r', -, h⟩
        · exact hloop.2 e h
        · rcases bind_eq_error h with h | ⟨allowed, -, h⟩
          · exact (ParameterSetModifier.applySpaces_eq_error h).1
          · cases h
    · intro r hr s _ r' h
      split at h
      · exact Except.ok.inj h ▸ hr
      · rename_i hs
        obtain ⟨res, hres, h⟩ := bind_eq_ok h
        have hlen := hlength hr.2
        obtain ⟨hnodup₁, hsub⟩ := (ih hr.1 hs (by omega)).1 res hres
        rw [← Except.ok.inj h]
        exact ⟨hnodup₁, fun y hy => hsub (List.mem_append_left _ (hr.2 hy))⟩
    · intro r hr s _ e h
      split at h
      · cases h
      · rename_i hs
        rcases bind_eq_error h with h | ⟨res, -, h⟩
        · have hlen := hlength hr.2
          exact (ih hr.1 hs (by omega)).2 e h
        · cases h

end Depth

/-- A step does not run out of depth. -/
theorem refreshStep_ne_outOfFuel (x : M) (t : Graph M D R) : refreshStep x t ≠ .error .outOfFuel := by
  intro h
  rcases bind_eq_error h with h | ⟨allowed, -, h⟩
  · unfold getAllowedSpaces at h
    cases hrec : getAllowedSpacesRec t (Fintype.card M) x [] with
    | error e =>
      rw [hrec] at h
      injection h with h
      cases h.symm.trans ((getAllowedSpacesRec_error List.nodup_nil List.not_mem_nil
        (Nat.le_add_right _ _)).2 e hrec)
    | ok r =>
      rw [hrec] at h
      cases h
  · rcases bind_eq_error h with h | ⟨exported, -, h⟩
    · cases (ParameterSetModifier.apply_eq_error h).1
    · split at h
      · cases h
      · cases h

/-- In an acyclic graph the recursion of a refresh ends. -/
theorem terminates_of_acyclic (hw : g.Wired) (ha : g.Acyclic) (x : M) (ht : SameShape g t) :
    Terminates refreshStep .outOfFuel x t := by
  have htrans : IsTrans M fun p z => g.Below z p := ⟨fun a b c hab hbc => Relation.TransGen.trans hab hbc⟩
  have hirrefl : Std.Irrefl fun p z => g.Below z p := ⟨ha.not_below⟩
  have hshape : ∀ {z s s' next}, SameShape g s → refreshStep z s = .ok (s', next) → SameShape g s' :=
    fun h hstep => h.trans (.step hstep)
  refine terminates_of_wellFounded (Finite.wellFounded_of_trans_of_irrefl fun p z => g.Below z p)
    hshape (fun z s _ => refreshStep_ne_outOfFuel z s) ?_ x ht
  intro z s s' next h hstep p hp
  obtain ⟨allowed, exported, -, -, -, rfl⟩ := refreshStep_eq_ok hstep
  split at hp
  · rw [h.predecessors, hw] at hp
    exact .single hp
  · cases hp

end Vpsim.Core.Graph

/-! ## Runs of calls -/

namespace Vpsim.Core.ModuleCall

open Vpsim.Lib ParameterSet Vpsim.Core.Graph

variable {M D R : Type} [DecidableEq M]

/-- The connections from a module that a list of calls makes. -/
def edges (calls : List (ModuleCall M D R)) (m : M) : List M :=
  calls.filterMap fun c => match c with
    | .addSuccessor m' s _ => if m' = m then some s else none
    | _ => none

/-- The calls connect the modules without a cycle. -/
def Acyclic (calls : List (ModuleCall M D R)) : Prop := ∀ m, ∀ s ∈ edges calls m, ¬ Reaches (edges calls) s m

variable {calls : List (ModuleCall M D R)} {c : ModuleCall M D R} {s s₁ s' : Assembly M D R} {g g' : Graph M D R}

theorem mem_edges {m s : M} {port : ℕ} (h : .addSuccessor m s port ∈ calls) : s ∈ edges calls m := by
  refine List.mem_filterMap.mpr ⟨_, h, ?_⟩
  dsimp only
  rw [if_pos rfl]

/-! ### What a call does before its refresh -/

omit [DecidableEq M] in
theorem withGraph_eq_ok {r : Except Failure (Graph M D R)} (h : withGraph s r = .ok s₁) :
    r = .ok s₁.graph ∧ s₁ = { s with graph := s₁.graph } := by
  cases r with
  | ok g =>
    obtain rfl := Except.ok.inj h
    exact ⟨rfl, rfl⟩
  | error e => cases h

theorem prepare_setParameter_eq_ok {m : M} {as : AddrSpace} {has : as.WellFormed} {param : ModuleParameter D R}
    (h : (setParameter m as has param).prepare s = .ok s₁) :
    (Call.setParameter m as has param).prepare s.graph = .ok s₁.graph :=
  (withGraph_eq_ok (r := (Call.setParameter m as has param).prepare s.graph) h).1

/-- A call that attaches a modifier extends the chain of its module before it refreshes. -/
theorem prepare_attach_eq_ok {m : M} {modifier : ModifierObject}
    (h : (addParameterSetModifier m modifier).prepare s = .ok s₁) :
    ∃ t, s.attach m modifier = some t ∧ (t.modifiersOf m).isSome ∧ s₁ = t.relink := by
  unfold prepare at h
  dsimp only at h
  split at h
  · cases h
  · rename_i t ht
    split at h
    · rename_i hends
      exact ⟨t, ht, hends, (Except.ok.inj h).symm⟩
    · cases h

/-- Attaching a modifier changes only the modifiers. -/
theorem field_attach {α : Type} (f : VpsimModule M D R → α) (hf : ∀ v modifiers, f { v with modifier := modifiers } = f v)
    {m : M} {modifier : ModifierObject} (h : (addParameterSetModifier m modifier).prepare s = .ok s₁) (x : M) :
    f (s₁.graph x) = f (s.graph x) := by
  obtain ⟨t, ht, -, rfl⟩ := prepare_attach_eq_ok h
  rw [← Assembly.graph_attach ht]
  exact hf _ _

/-- Before its refresh a call changes no export, and no ports and own parameters of other modules. -/
theorem prepare_fields (h : c.prepare s = .ok s₁) :
    (∀ x, (s₁.graph x).exportedParameters = (s.graph x).exportedParameters) ∧
      ∀ x, x ≠ c.callee → (s₁.graph x).ports = (s.graph x).ports ∧
        (s₁.graph x).intrinsecParameters = (s.graph x).intrinsecParameters := by
  cases c with
  | addSuccessor m s' port =>
    obtain ⟨hexported, hfields⟩ := Call.prepare_fields (withGraph_eq_ok h).1
    exact ⟨hexported, fun x hx => ⟨(hfields x hx).1, (hfields x hx).2.1⟩⟩
  | setParameter m as has param =>
    obtain ⟨hexported, hfields⟩ := Call.prepare_fields (prepare_setParameter_eq_ok h)
    exact ⟨hexported, fun x hx => ⟨(hfields x hx).1, (hfields x hx).2.1⟩⟩
  | addParameterSetModifier m modifier =>
    exact ⟨field_attach VpsimModule.exportedParameters (fun _ _ => rfl) h, fun x _ =>
      ⟨field_attach VpsimModule.ports (fun _ _ => rfl) h x,
        field_attach VpsimModule.intrinsecParameters (fun _ _ => rfl) h x⟩⟩

/-- Before its refresh a call makes at most its own connection, in both directions. -/
theorem prepare_connections (h : c.prepare s = .ok s₁) :
    (∀ p x, p ∈ (s₁.graph x).predecessors ↔ p ∈ (s.graph x).predecessors ∨ ∃ port, c = .addSuccessor p x port) ∧
      ∀ p x, x ∈ (s₁.graph p).successors ↔ x ∈ (s.graph p).successors ∨ ∃ port, c = .addSuccessor p x port := by
  cases c with
  | addSuccessor m s' port =>
    obtain ⟨hpreds, hsuccs⟩ := Call.prepare_connections (withGraph_eq_ok h).1
    have hsame (p x : M) : (∃ port', Call.addSuccessor (D := D) (R := R) m s' port = .addSuccessor p x port') ↔
        ∃ port', addSuccessor (D := D) (R := R) m s' port = .addSuccessor p x port' := by simp
    exact ⟨fun p x => (hpreds p x).trans (or_congr_right (hsame p x)),
      fun p x => (hsuccs p x).trans (or_congr_right (hsame p x))⟩
  | setParameter m as has param =>
    obtain ⟨hpreds, hsuccs⟩ := Call.prepare_connections (prepare_setParameter_eq_ok h)
    exact ⟨fun p x => (hpreds p x).trans (by simp), fun p x => (hsuccs p x).trans (by simp)⟩
  | addParameterSetModifier m modifier =>
    refine ⟨fun p x => ?_, fun p x => ?_⟩
    · rw [field_attach VpsimModule.predecessors (fun _ _ => rfl) h x]
      simp
    · rw [field_attach VpsimModule.successors (fun _ _ => rfl) h p]
      simp

/-- The own change of a call keeps imports and exports sound and ranges well formed. -/
theorem ranged_prepare (hr : s.graph.Ranged) (h : c.prepare s = .ok s₁) : s₁.graph.Ranged := by
  cases c with
  | addSuccessor m s' port => exact hr.prepare (withGraph_eq_ok h).1
  | setParameter m as has param => exact hr.prepare (prepare_setParameter_eq_ok h)
  | addParameterSetModifier m modifier =>
    obtain ⟨t, ht, -, rfl⟩ := prepare_attach_eq_ok h
    intro x
    have hx : (t.graph x).Ranged := (Assembly.graph_attach ht).symm ▸ hr x
    exact ⟨hx.own, hx.intrinsec, hx.effective, hx.free, hx.exported⟩

/-- The own change of a call keeps the chains of objects and the modifiers of the modules in step. -/
theorem linked_prepare (hl : s.Linked) (h : c.prepare s = .ok s₁) : s₁.Linked := by
  have hgraph (c' : Call M D R) (hc : ∀ m modifier, c' ≠ .addParameterSetModifier m modifier)
      (h : withGraph s (c'.prepare s.graph) = .ok s₁) : s₁.Linked := by
    obtain ⟨hprepare, hs₁⟩ := withGraph_eq_ok h
    intro x
    rw [Call.prepare_modifier hc hprepare x, hs₁]
    exact hl x
  cases c with
  | addSuccessor m s' port => exact hgraph (.addSuccessor m s' port) (fun _ _ hc => by cases hc) h
  | setParameter m as has param => exact hgraph (.setParameter m as has param) (fun _ _ hc => by cases hc) h
  | addParameterSetModifier m modifier =>
    obtain ⟨t, ht, hends, rfl⟩ := prepare_attach_eq_ok h
    obtain ⟨added, -, -, hall⟩ := Assembly.attach_eq_some hl ht hends
    intro x
    have hsome : (t.modifiersOf x).isSome := by
      rcases hall x with hx | ⟨-, hx⟩
      · rw [hx]
        rfl
      · rw [hx]
        rfl
    obtain ⟨modifiers, hx⟩ := Option.isSome_iff_exists.mp hsome
    change t.modifiersOf x = some ((t.modifiersOf x).getD [])
    rw [hx]
    rfl

/-- The own change of a call does not run out of depth. -/
theorem prepare_ne_outOfFuel {e : Stop} (h : c.prepare s = .error e) : e ≠ .throws .outOfFuel := by
  have hgraph (c' : Call M D R) (h : withGraph s (c'.prepare s.graph) = .error e) : e ≠ .throws .outOfFuel := by
    cases hprepare : c'.prepare s.graph with
    | ok g =>
      rw [hprepare] at h
      cases h
    | error f =>
      rw [hprepare] at h
      injection h with h
      rintro rfl
      injection h with h
      exact Call.prepare_ne_outOfFuel hprepare h
  cases c with
  | addSuccessor m s' port => exact hgraph (.addSuccessor m s' port) h
  | setParameter m as has param => exact hgraph (.setParameter m as has param) h
  | addParameterSetModifier m modifier =>
    rintro rfl
    unfold prepare at h
    dsimp only at h
    split at h
    · cases h
    · split at h <;> cases h

/-! ### What a run keeps -/

/-- What a run of the calls keeps. -/
structure Formed (calls : List (ModuleCall M D R)) (s : Assembly M D R) : Prop where
  wired : s.graph.Wired
  ranged : s.graph.Ranged
  linked : s.Linked
  edges : ∀ m, (s.graph m).successors ⊆ edges calls m

theorem formed_start (calls : List (ModuleCall M D R)) (config : M → ModuleConfig)
    (objects : List ModifierObject) : Formed calls (.start config objects) where
  wired := wired_construct config
  ranged := ranged_construct config
  linked := Assembly.linked_start config objects
  edges m s hs := by
    obtain ⟨port, hport, hs⟩ := mem_successors.mp hs
    rw [(List.mem_replicate.mp hport).2] at hs
    cases hs

theorem Formed.acyclic (h : Formed calls s) (ha : Acyclic calls) : s.graph.Acyclic := by
  intro m x hx hback
  apply ha m x (h.edges m hx)
  exact Relation.ReflTransGen.mono (fun a b hab => h.edges a hab) x m hback

theorem Formed.of_sameShape (h : Formed calls s) (hr : g'.Ranged) (hshape : SameShape s.graph g') :
    Formed calls { s with graph := g' } where
  wired := h.wired.of_sameShape hshape
  ranged := hr
  linked m := (h.linked m).trans (congrArg some (hshape.modifier m).symm)
  edges m := hshape.successors m ▸ h.edges m

theorem Formed.prepare (h : Formed calls s) (hc : c ∈ calls) (hprepare : c.prepare s = .ok s₁) :
    Formed calls s₁ := by
  obtain ⟨hpreds, hsuccs⟩ := prepare_connections hprepare
  refine ⟨fun p x => ?_, ranged_prepare h.ranged hprepare, linked_prepare h.linked hprepare, fun m x hx => ?_⟩
  · rw [hpreds, hsuccs, h.wired]
  · rcases (hsuccs m x).mp hx with hx | ⟨port, rfl⟩
    · exact h.edges m hx
    · exact mem_edges hc

section

variable [LinearOrder D] [Add D] [HMul D R D]

/-- Before its refresh a call leaves the modules consistent, apart from its own one: a module that has other
modifiers now still exports nothing only if nothing propagates from it. -/
theorem consistent_prepare (hr : s.graph.Ranged) (h : s.graph.AllSettled) (hprepare : c.prepare s = .ok s₁) :
    ∀ j, j ≠ c.callee → s₁.graph.Consistent j := by
  intro j hj
  obtain ⟨hexported, hfields⟩ := prepare_fields hprepare
  exact ((h j).consistent hr).congr (hfields j hj).1 (hfields j hj).2 hexported

/-- Another module is settled before the refresh exactly if its modifiers give the same export as before. -/
theorem settled_prepare_iff (h : s.graph.AllSettled) (hprepare : c.prepare s = .ok s₁) {j : M}
    (hj : j ≠ c.callee) :
    s₁.graph.Settled j ↔ (s₁.graph j).exportOf = (s.graph j).exportOf := by
  obtain ⟨hexported, hfields⟩ := prepare_fields hprepare
  constructor
  · intro hsettled
    rw [hsettled.exported, (h j).exported, hexported]
  · intro hsame
    refine ⟨fun port hport s' hs' => ?_, ?_⟩
    · rw [(hfields j hj).1] at hport
      rw [hexported]
      exact (h j).effective port hport s' hs'
    · rw [hsame, hexported]
      exact (h j).exported

omit [DecidableEq M] in
/-- The modules that are constructed are settled. -/
theorem allSettled_construct (config : M → ModuleConfig) :
    AllSettled fun m => ((config m).construct : VpsimModule M D R) := by
  intro m
  refine ⟨fun port hport s hs => ?_, ?_⟩
  · rw [(List.mem_replicate.mp hport).2] at hs
    cases hs
  · have hranged : ((config m).construct : VpsimModule M D R).Ranged := (config m).ranged_construct
    have hports : ∀ port ∈ ((config m).construct : VpsimModule M D R).ports, Silent port.effectiveParameters := by
      intro port hport
      rw [(List.mem_replicate.mp hport).2]
      exact silent_empty
    exact hranged.exportOf_of_silent silent_empty hports

end

variable [Fintype M] [LinearOrder D] [Add D] [HMul D R D] [DecidableEq R] {fuel : ℕ}

theorem Formed.refresh (h : Formed calls s) {m : M} (hrun : refreshParameters fuel m s.graph = .ok g') :
    Formed calls { s with graph := g' } := by
  have hend : During s.graph m g' :=
    (During.confined h.wired).propagate .refl (.start h.ranged h.wired m) hrun
  exact h.of_sameShape hend.ranged hend.shape

/-- A call returns when its own change and then its refresh return. -/
theorem run_eq_ok (h : c.run fuel s = .ok s') :
    ∃ s₁, c.prepare s = .ok s₁ ∧ refreshParameters fuel c.callee s₁.graph = .ok s'.graph ∧
      s' = { s₁ with graph := s'.graph } := by
  obtain ⟨s₁, hprepare, hrefresh⟩ := bind_eq_ok h
  exact ⟨s₁, hprepare, withGraph_eq_ok hrefresh⟩

theorem Formed.run (h : Formed calls s) (hc : c ∈ calls) (hrun : c.run fuel s = .ok s') : Formed calls s' := by
  obtain ⟨s₁, hprepare, hrefresh, hs'⟩ := run_eq_ok hrun
  rw [hs']
  exact (h.prepare hc hprepare).refresh hrefresh

/-- A call as one action of a run, which ends at a call that throws or does not return. -/
def step (fuel : ℕ) (c : ModuleCall M D R) : EStateM Stop (Assembly M D R) PUnit := fun s =>
  match c.run fuel s with
  | .ok s' => .ok ⟨⟩ s'
  | .error e => .error e s

theorem step_eq_ok : step fuel c s = .ok ⟨⟩ s' ↔ c.run fuel s = .ok s' := by
  unfold step
  cases c.run fuel s with
  | error e => exact iff_of_false (fun h => by cases h) (fun h => by cases h)
  | ok t => simp

/-- If the call returns, its refresh recomputes what it clears, and the modules from which the callee cannot
be reached export the same with the modifiers that they share with it. -/
def Recomputes (fuel : ℕ) (s : Assembly M D R) (c : ModuleCall M D R) : Prop :=
  ∀ s₁ s', c.prepare s = .ok s₁ → c.run fuel s = .ok s' →
    (∀ j, ¬ Reaches s₁.graph.succs j c.callee → (s₁.graph j).exportOf = (s.graph j).exportOf) ∧
      s₁.graph.Recomputes c.callee

/-- A call from a settled graph that returns settles it exactly when its refresh recomputes what it
clears, and the other modules export the same as before. -/
theorem allSettled_run_iff (h : Formed calls s) (ha : Acyclic calls) (hsettled : s.graph.AllSettled)
    (hc : c ∈ calls) (hrun : c.run fuel s = .ok s') : s'.graph.AllSettled ↔ Recomputes fuel s c := by
  obtain ⟨s₁, hprepare, hrefresh, -⟩ := run_eq_ok hrun
  have h₁ := h.prepare hc hprepare
  have hiff := allSettled_refresh_iff h₁.wired h₁.ranged (h₁.acyclic ha)
    (consistent_prepare h.ranged hsettled hprepare) hrefresh
  have houtside : (∀ j, ¬ Reaches s₁.graph.succs j c.callee → s₁.graph.Settled j) ↔
      ∀ j, ¬ Reaches s₁.graph.succs j c.callee → (s₁.graph j).exportOf = (s.graph j).exportOf := by
    refine forall_congr' fun j => imp_congr_right fun hj => settled_prepare_iff hsettled hprepare ?_
    rintro rfl
    exact hj .refl
  rw [hiff, houtside]
  constructor
  · intro hcond s₁' _ hprepare' _
    rw [hprepare] at hprepare'
    obtain rfl := Except.ok.inj hprepare'
    exact hcond
  · intro hcond
    exact hcond s₁ s' hprepare hrun

/-- A run of calls that connect the modules without a cycle does not run out of depth, if it is given
enough. -/
theorem exists_fuel (ha : Acyclic calls) {rest : List (ModuleCall M D R)} (hrest : rest ⊆ calls)
    (h : Formed calls s) :
    ∃ n, ∀ fuel, n ≤ fuel → ∀ t, rest.forM (step fuel) s ≠ .error (.throws .outOfFuel) t := by
  induction rest generalizing s with
  | nil => exact ⟨0, fun fuel _ t h => by cases h⟩
  | cons c rest ih =>
    have hc : c ∈ calls := hrest List.mem_cons_self
    have hfails {fuel : ℕ} {e : Stop} (hrun : c.run fuel s = .error e) (he : e ≠ .throws .outOfFuel) :
        ∀ t, (c :: rest).forM (step fuel) s ≠ .error (.throws .outOfFuel) t := by
      intro t ht
      have hstep : step fuel c s = .error e s := by
        unfold step
        rw [hrun]
      have hforM := (bind_of_error (f := fun _ => rest.forM (step fuel)) hstep).symm.trans ht
      injection hforM with heq
      exact he heq
    cases hprepare : c.prepare s with
    | error e =>
      refine ⟨0, fun fuel _ => hfails (e := e) ?_ (prepare_ne_outOfFuel hprepare)⟩
      unfold run
      rw [hprepare]
      rfl
    | ok s₁ =>
      have h₁ := h.prepare hc hprepare
      have hrun (fuel : ℕ) : c.run fuel s = withGraph s₁ (refreshParameters fuel c.callee s₁.graph) := by
        unfold run
        rw [hprepare]
        rfl
      obtain ⟨k, hk⟩ := terminates_of_acyclic h₁.wired (h₁.acyclic ha) c.callee
        (sameShape_clearPredecessors s₁.graph c.callee)
      have hdeep {fuel : ℕ} (hfuel : k ≤ fuel) :
          refreshParameters fuel c.callee s₁.graph = refreshParameters k c.callee s₁.graph :=
        propagate_mono hfuel hk
      cases hrefresh : refreshParameters k c.callee s₁.graph with
      | error e =>
        refine ⟨k, fun fuel hfuel => hfails (e := .throws e) ?_ ?_⟩
        · rw [hrun, hdeep hfuel, hrefresh]
          rfl
        · rintro ⟨⟩
          exact hk hrefresh
      | ok t =>
        obtain ⟨n, hn⟩ := ih (fun x hx => hrest (List.mem_cons_of_mem _ hx)) (h₁.refresh hrefresh)
        refine ⟨max k n, fun fuel hfuel t' ht' => hn fuel ((Nat.le_max_right k n).trans hfuel) t' ?_⟩
        have hstep : step fuel c s = .ok ⟨⟩ { s₁ with graph := t } := by
          rw [step_eq_ok, hrun, hdeep ((Nat.le_max_left k n).trans hfuel), hrefresh]
          rfl
        exact (bind_of_ok hstep).symm.trans ht'

/-- In a run of calls that connect the modules without a cycle, from modifier objects of the callers that are
attached to each other in any way, the defining equations hold after every call exactly when every call
recomputes what it clears and leaves the exports of the modules below and beside it valid. -/
theorem equations_hold_iff (config : M → ModuleConfig) (objects : List ModifierObject)
    (calls : List (ModuleCall M D R)) (ha : Acyclic calls) :
    (∃ n, ∀ fuel, n ≤ fuel →
      ∀ t, calls.forM (step fuel) (.start config objects) ≠ .error (.throws .outOfFuel) t) ∧
      ∀ fuel, Throughout (step fuel) (fun s => s.graph.AllSettled) (.start config objects) calls ↔
        Along (step fuel) (Recomputes fuel) (.start config objects) calls := by
  have hformed := formed_start calls config objects
  refine ⟨exists_fuel ha (fun _ h => h) hformed, fun fuel => ?_⟩
  refine throughout_iff_along (fun s (h : Formed calls s ∧ s.graph.AllSettled) => h.2) calls ?_ ?_
    ⟨hformed, allSettled_construct config⟩
  · intro s c hc s' h hcond hrun
    rw [step_eq_ok] at hrun
    exact ⟨h.1.run hc hrun, (allSettled_run_iff h.1 ha h.2 hc hrun).mpr hcond⟩
  · intro s c hc h hcond
    unfold Recomputes at hcond
    push Not at hcond
    obtain ⟨s₁, s', hprepare, hrun, hnot⟩ := hcond
    refine ⟨s', step_eq_ok.mpr hrun, fun hall => ?_⟩
    obtain ⟨houtside, hrecomputes⟩ := (allSettled_run_iff h.1 ha h.2 hc hrun).mp hall s₁ s' hprepare hrun
    exact hnot houtside hrecomputes

/-! ## The same value set twice -/

theorem pairSpace_wellFormed : (AddrSpace.mk 0x100 0x1ff).WellFormed := by decide

/-- A module with one port, and a memory. -/
def pairConfig : Bool → ModuleConfig
  | false => ⟨.intermediate, AddrSpace.maxRange, AddrSpace.maxRange_wellFormed, 1⟩
  | true => ⟨.memoryMapped, ⟨0x100, 0x1ff⟩, pairSpace_wellFormed, 0⟩

/-- The module is connected to the memory, and blocking transport is enabled there twice. -/
def enableTwice : List (ModuleCall Bool ℕ ℕ) :=
  [.addSuccessor false true 0,
    .setParameter true ⟨0x100, 0x1ff⟩ pairSpace_wellFormed (.blockingTLMEnabled .enabled),
    .setParameter true ⟨0x100, 0x1ff⟩ pairSpace_wellFormed (.blockingTLMEnabled .enabled)]

theorem acyclic_enableTwice : Acyclic enableTwice := by
  intro m s hs
  refine not_reaches_of_rank Bool.toNat ?_ hs
  decide

/-- The run meets the condition exactly as long as it settles the two modules. -/
theorem equations_hold_iff_enableTwice :
    (∃ n, ∀ fuel, n ≤ fuel →
      ∀ t, enableTwice.forM (step fuel) (.start pairConfig []) ≠ .error (.throws .outOfFuel) t) ∧
      ∀ fuel, Throughout (step fuel) (fun s => s.graph.AllSettled) (.start pairConfig []) enableTwice ↔
        Along (step fuel) (Recomputes fuel) (.start pairConfig []) enableTwice :=
  equations_hold_iff pairConfig [] enableTwice acyclic_enableTwice

/-- Whether the module `m` exports something else than its fields define. -/
def lost (s : Assembly Bool ℕ ℕ) (m : Bool) : Bool :=
  returnsWith (fun e => decide (e ≠ (s.graph m).exportedParameters)) (s.graph m).exportOf

theorem not_allSettled_of_lost {s : Assembly Bool ℕ ℕ} {m : Bool} (h : lost s m = true) :
    ¬ s.graph.AllSettled := by
  intro hall
  obtain ⟨e, he, hne⟩ := exists_ok_of_returnsWith h
  exact of_decide_eq_true hne (Except.ok.inj (he.symm.trans (hall m).exported))

/-- The second time the export of the memory does not change, and the export of the first module stays
cleared. -/
theorem not_settled_enableTwice :
    Acyclic enableTwice ∧ returns (enableTwice.forM (step 4) (.start pairConfig [])) = true ∧
      ¬ Throughout (step 4) (fun s => s.graph.AllSettled) (.start pairConfig []) enableTwice := by
  have hreturns : returns (enableTwice.forM (step 4) (.start pairConfig [])) = true := by
    decide +kernel
  have hlost : lost (endState (enableTwice.forM (step 4) (.start pairConfig []))) false = true := by
    decide +kernel
  exact ⟨acyclic_enableTwice, hreturns, fun hall =>
    not_allSettled_of_lost hlost (hall _ [] _ (List.append_nil _).symm (eq_ok_endState hreturns))⟩

/-! ## Modifiers that two modules share -/

/-- Two memories that are given a modifier with a translator attached to it, in the object 0, after which the
first of them is given another one. -/
def shareAttached : List (ModuleCall Bool ℕ ℕ) :=
  [.addParameterSetModifier false ⟨.neutral, some 0⟩,
    .addParameterSetModifier true ⟨.neutral, some 0⟩,
    .setParameter true ⟨0x100, 0x1ff⟩ pairSpace_wellFormed (.blockingTLMEnabled .enabled),
    .addParameterSetModifier false ⟨.addressTranslator 16 (by decide) false, none⟩]

/-- The objects of the caller: a translator by 0. -/
def sharedTranslator : List ModifierObject := [⟨.addressTranslator 0 (by decide) false, none⟩]

/-- The last call attaches its translator for the second memory as well, which goes on exporting what it did
without it. -/
example : lost (endState (shareAttached.forM (step 4) (.start pairConfig sharedTranslator))) true = true := by
  decide +kernel

end Vpsim.Core.ModuleCall
