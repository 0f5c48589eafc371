import Vpsim.Core.Connections

/-!
# What a refresh settles

In a settled graph every connected port holds what its successor exports, and every module exports
what its fields define. A refresh empties the exports of all modules from which its own one can be
reached, and computes them again only along chains of modules whose exports change.
-/

namespace Vpsim.Core.Graph

open Vpsim.Lib ParameterSet

variable {M D R : Type}

/-! ## The equations -/

/-- The connected ports of a module hold what their successors export, and the module exports what its
fields define. -/
structure Settled [LinearOrder D] [Add D] [HMul D R D] (g : Graph M D R) (m : M) : Prop where
  effective : ∀ port ∈ (g m).ports, ∀ s, port.successor = some s →
    port.effectiveParameters = (g s).exportedParameters
  exported : (g m).exportOf = .ok (g m).exportedParameters

/-- The defining equations hold of every module. -/
def AllSettled [LinearOrder D] [Add D] [HMul D R D] (g : Graph M D R) : Prop := ∀ m, g.Settled m

/-- The connected ports of a module hold what their successors export, and the module exports nothing exactly
if nothing propagates from its fields. Unlike `Settled` this does not depend on the modifiers. -/
structure Consistent (g : Graph M D R) (m : M) : Prop where
  effective : ∀ port ∈ (g m).ports, ∀ s, port.successor = some s →
    port.effectiveParameters = (g s).exportedParameters
  exported : (g m).exportedParameters = empty ↔
    Silent (g m).intrinsecParameters ∧ ∀ port ∈ (g m).ports, Silent port.effectiveParameters

theorem Consistent.congr {g g' : Graph M D R} {m : M} (h : g.Consistent m) (hports : (g' m).ports = (g m).ports)
    (hown : (g' m).intrinsecParameters = (g m).intrinsecParameters)
    (hexported : ∀ x, (g' x).exportedParameters = (g x).exportedParameters) : g'.Consistent m where
  effective port hport s hs := by
    rw [hports] at hport
    rw [hexported]
    exact h.effective port hport s hs
  exported := by
    rw [hports, hown, hexported]
    exact h.exported

section Settled

variable [LinearOrder D] [Add D] [HMul D R D] {g g' : Graph M D R} {m : M}

theorem Settled.consistent (h : g.Settled m) (hr : g.Ranged) : g.Consistent m :=
  ⟨h.effective, ((hr m).exportOf h.exported).2⟩

theorem Settled.congr (h : g.Settled m) (hports : (g' m).ports = (g m).ports)
    (hown : (g' m).intrinsecParameters = (g m).intrinsecParameters) (hmodifier : (g' m).modifier = (g m).modifier)
    (hexported : (g' m).exportedParameters = (g m).exportedParameters)
    (hsucc : ∀ s ∈ (g m).successors, (g' s).exportedParameters = (g s).exportedParameters) : g'.Settled m where
  effective port hport s hs := by
    rw [hports] at hport
    rw [hsucc s (mem_successors.mpr ⟨port, hport, hs⟩)]
    exact h.effective port hport s hs
  exported := by
    have hexport := h.exported
    unfold VpsimModule.exportOf at hexport ⊢
    rw [hports, hown, hmodifier, hexported]
    exact hexport

/-- A settled module exports nothing only if nothing of its own propagates and its successors export
nothing. -/
theorem Settled.exported_eq_empty (h : g.Settled m) (hr : g.Ranged) (he : (g m).exportedParameters = empty) :
    Silent (g m).intrinsecParameters ∧ (∀ s ∈ (g m).successors, (g s).exportedParameters = empty) ∧
      ∀ port ∈ (g m).ports, port.effectiveParameters = empty := by
  obtain ⟨hown, hports⟩ := ((hr m).exportOf h.exported).2.mp he
  have hempty : ∀ port ∈ (g m).ports, port.effectiveParameters = empty := fun port hport =>
    ((hr m).effective port hport).eq_empty_iff.mpr (hports port hport)
  refine ⟨hown, fun s hs => ?_, hempty⟩
  obtain ⟨port, hport, hs⟩ := mem_successors.mp hs
  rw [← h.effective port hport s hs]
  exact hempty port hport

/-- What propagates from a module that can be reached through settled modules is exported. -/
theorem exported_ne_empty_of_reaches (hr : g.Ranged) {r y : M} (hry : Reaches g.succs r y)
    (hsettled : ∀ z, Reaches g.succs r z → g.Settled z) (hown : ¬ Silent (g y).intrinsecParameters) :
    (g r).exportedParameters ≠ empty := by
  induction hry using Relation.ReflTransGen.head_induction_on with
  | refl => exact fun he => hown ((hsettled y .refl).exported_eq_empty hr he).1
  | head hedge hrest ih =>
    intro he
    have hnext := ih fun z hz => hsettled z (.head hedge hz)
    exact hnext (((hsettled _ .refl).exported_eq_empty hr he).2.1 _ hedge)

/-- What a module exports through settled modules comes from a module that can be reached. -/
theorem exists_own_of_exported [Finite M] (hr : g.Ranged) (ha : g.Acyclic) {r : M}
    (hsettled : ∀ z, Reaches g.succs r z → g.Settled z) (he : (g r).exportedParameters ≠ empty) :
    ∃ y, Reaches g.succs r y ∧ ¬ Silent (g y).intrinsecParameters := by
  induction r using ha.wellFounded.induction with
  | _ r ih =>
    by_cases hown : Silent (g r).intrinsecParameters
    · have hnot := mt ((hr r).exportOf (hsettled r .refl).exported).2.mpr he
      have hport : ∃ port ∈ (g r).ports, ¬ Silent port.effectiveParameters := by
        by_contra hnone
        push Not at hnone
        exact hnot ⟨hown, hnone⟩
      obtain ⟨port, hport, hloud⟩ := hport
      cases hs : port.successor with
      | none =>
        rw [(hr r).free port hport hs] at hloud
        exact absurd silent_empty hloud
      | some s =>
        have hmem : s ∈ (g r).successors := mem_successors.mpr ⟨port, hport, hs⟩
        rw [(hsettled r .refl).effective port hport s hs] at hloud
        have hne : (g s).exportedParameters ≠ empty := by
          intro h0
          rw [h0] at hloud
          exact hloud silent_empty
        obtain ⟨y, hy, hloudy⟩ := ih s (.single hmem) (fun z hz => hsettled z (.head hmem hz)) hne
        exact ⟨y, .head hmem hy, hloudy⟩
    · exact ⟨r, .refl, hown⟩

end Settled

/-! ## Clearing and one step -/

variable [DecidableEq M] [Fintype M]

section Clear

variable {g : Graph M D R} {m x : M}

/-- The modules from which `m` can be reached are cleared. -/
theorem Wired.clearPredecessors_of_reaches (hw : Wired g) (hx : Reaches g.succs x m) (hne : x ≠ m) :
    clearPredecessors g m x = g.cleared x := by
  rw [clearPredecessors_eq, clearedOn, if_pos]
  exact ⟨mem_visit_iff.mpr (hw.reaches_preds.mpr hx), fun h => hne (List.mem_singleton.mp h)⟩

/-- The other modules are left alone. -/
theorem Wired.clearPredecessors_of_not_reaches (hw : Wired g) (hx : ¬ Reaches g.succs x m) :
    clearPredecessors g m x = g x := by
  rw [clearPredecessors_eq, clearedOn, if_neg]
  exact fun h => hx (hw.reaches_preds.mp (mem_visit_iff.mp h.1))

end Clear

/-- What holds while a call on `m` refreshes the graph `g`: only modules from which `m` can be reached
change, and their own parameters are trimmed. -/
structure During [LinearOrder D] [DecidableEq R] (g : Graph M D R) (m : M) (t : Graph M D R) : Prop where
  shape : SameShape g t
  ranged : Ranged t
  outside : ∀ x, ¬ Reaches g.succs x m → t x = g x
  own : ∀ x allowed, getAllowedSpaces g x = .ok allowed →
    (Silent ((t x).intrinsecParameters.trim allowed) ↔ Silent ((g x).intrinsecParameters.trim allowed))

section During

variable {g t t' : Graph M D R} {m x : M} {next : List M}

theorem During.start [LinearOrder D] [DecidableEq R] (hr : g.Ranged) (hw : g.Wired) (m : M) : During g m (clearPredecessors g m) where
  shape := sameShape_clearPredecessors g m
  ranged := hr.clearPredecessors m
  outside x hx := hw.clearPredecessors_of_not_reaches hx
  own x allowed _ := by
    obtain ⟨exported, hx⟩ := clearPredecessors_apply g m x
    rw [hx]

variable [LinearOrder D] [Add D] [HMul D R D] [DecidableEq R]

theorem SameShape.step (h : refreshStep x t = .ok (t', next)) : SameShape t t' := by
  obtain ⟨allowed, exported, -, -, rfl, -⟩ := refreshStep_eq_ok h
  exact ⟨field_update VpsimModule.predecessors rfl,
    field_update VpsimModule.successors (successors_refreshed t x allowed),
    field_update VpsimModule.modifier rfl, field_update VpsimModule.ownAddrSpace rfl,
    field_update VpsimModule.moduleType rfl⟩

theorem During.step (h : During g m t) (hx : Reaches g.succs x m) (hstep : refreshStep x t = .ok (t', next)) :
    During g m t' := by
  have hshape := h.shape.trans (.step hstep)
  have hranged := h.ranged.step hstep
  obtain ⟨allowed, exported, ha, -, rfl, -⟩ := refreshStep_eq_ok hstep
  refine ⟨hshape, hranged, fun y hy => ?_, fun y allowed' ha' => ?_⟩
  · rw [Function.update_of_ne]
    · exact h.outside y hy
    · rintro rfl
      exact hy hx
  · by_cases hyx : y = x
    · subst hyx
      rw [Function.update_self]
      rw [getAllowedSpaces_congr h.shape] at ha
      rw [ha] at ha'
      obtain rfl := Except.ok.inj ha'
      have hwf := h.ranged.getAllowedSpaces ((getAllowedSpaces_congr h.shape y).trans ha)
      exact ((h.ranged y).intrinsec.silent_trim_trim hwf).trans (h.own y allowed ha)
    · rw [Function.update_of_ne hyx]
      exact h.own y allowed' ha'

/-- The steps of a call stay among the modules from which its own one can be reached. -/
theorem During.confined (hw : g.Wired) : Confined refreshStep (fun x => Reaches g.succs x m) (During g m) where
  inv hx h hstep := h.step hx hstep
  next hx h hstep p hp := by
    obtain ⟨allowed, exported, -, -, -, rfl⟩ := refreshStep_eq_ok hstep
    split at hp
    · rw [h.shape.predecessors] at hp
      exact .head ((hw _ _).mp hp) hx
    · cases hp

/-- A step that changes the export of its module returns all its predecessors, and changes no other
export. -/
theorem step_follows (hstep : refreshStep x t = .ok (t', next)) (y : M)
    (hy : (t' y).exportedParameters ≠ (t y).exportedParameters) : y = x ∧ next = (t x).predecessors := by
  obtain ⟨allowed, exported, -, -, rfl, rfl⟩ := refreshStep_eq_ok hstep
  by_cases hyx : y = x
  · subst hyx
    rw [Function.update_self] at hy
    exact ⟨rfl, if_pos hy⟩
  · rw [Function.update_of_ne hyx] at hy
    exact absurd rfl hy

/-- A step settles its module, and unsettles at most the predecessors that it returns. -/
theorem During.settles (hw : g.Wired) (ha : g.Acyclic) :
    Settles refreshStep (fun x => Reaches g.succs x m) (During g m) (fun j t => t.Settled j) where
  toConfined := During.confined hw
  self := by
    intro x t t' next hx h hstep
    left
    obtain ⟨allowed, exported, -, he, rfl, -⟩ := refreshStep_eq_ok hstep
    refine ⟨fun port hport s hs => ?_, ?_⟩
    · rw [Function.update_self] at hport
      change port ∈ (refreshed t x allowed).ports at hport
      have hmem : s ∈ (t x).successors := by
        rw [← successors_refreshed t x allowed]
        exact mem_successors.mpr ⟨port, hport, hs⟩
      have hne : s ≠ x := by
        rintro rfl
        rw [h.shape.successors] at hmem
        exact ha s s hmem .refl
      rw [Function.update_of_ne hne]
      exact effective_refreshed hport hs
    · rw [Function.update_self]
      exact he
  other := by
    intro x t t' next hx h hstep j hj hsettled
    by_cases hall : ∀ s ∈ (t j).successors, (t' s).exportedParameters = (t s).exportedParameters
    · left
      obtain ⟨allowed, exported, -, he, rfl, -⟩ := refreshStep_eq_ok hstep
      have hsame : Function.update t x { refreshed t x allowed with exportedParameters := exported } j = t j :=
        Function.update_of_ne hj _ _
      exact hsettled.congr (by rw [hsame]) (by rw [hsame]) (by rw [hsame]) (by rw [hsame]) hall
    · right
      push Not at hall
      obtain ⟨s, hs, hne⟩ := hall
      obtain ⟨rfl, rfl⟩ := step_follows hstep s hne
      rw [h.shape.predecessors, hw, ← h.shape.successors]
      exact hs

end During

/-! ## Which modules are refreshed -/

/-- The own parameters of `y` that propagate after a refresh of `m`: a module from which `m` can be reached
trims them first. -/
def KeepsOwn [LinearOrder D] [DecidableEq R] (g : Graph M D R) (m y : M) : Prop :=
  (Reaches g.succs y m ∧
    ∃ allowed, getAllowedSpaces g y = .ok allowed ∧ ¬ Silent ((g y).intrinsecParameters.trim allowed)) ∨
  (¬ Reaches g.succs y m ∧ ¬ Silent (g y).intrinsecParameters)

/-- Something that propagates can be reached from `r`. -/
def Supplied [LinearOrder D] [DecidableEq R] (g : Graph M D R) (m r : M) : Prop :=
  ∃ y, Reaches g.succs r y ∧ KeepsOwn g m y

/-- The refresh of `m` changes what it exports. -/
def ExportChanges [LinearOrder D] [Add D] [HMul D R D] [DecidableEq R] (g : Graph M D R) (m : M) : Prop :=
  ∃ allowed exported, getAllowedSpaces g m = .ok allowed ∧ (refreshed g m allowed).exportOf = .ok exported ∧
    exported ≠ (g m).exportedParameters

/-- Every module that the refresh of `m` clears, and that exported something, is refreshed again: the
export of `m` changes, and the module is connected to `m`, or to a module that leads to `m` and has
something to export. -/
def Recomputes [LinearOrder D] [Add D] [HMul D R D] [DecidableEq R] (g : Graph M D R) (m : M) : Prop :=
  ∀ q, q ≠ m → Reaches g.succs q m → (g q).exportedParameters ≠ empty →
    ExportChanges g m ∧
      (m ∈ (g q).successors ∨ ∃ r ∈ (g q).successors, Reaches g.succs r m ∧ Supplied g m r)

section

variable [LinearOrder D] [DecidableEq R] {g t : Graph M D R} {m : M}

/-- Own parameters that propagate before the refreshes or after a trim still do in the end. -/
theorem During.loud_of_keepsOwn (h : During g m t) {y : M} (hy : KeepsOwn g m y) :
    ¬ Silent (t y).intrinsecParameters := by
  rcases hy with ⟨-, allowed, ha, hloud⟩ | ⟨hout, hloud⟩
  · intro hsilent
    exact hloud ((h.own y allowed ha).mp (hsilent.trim allowed))
  · rw [h.outside y hout]
    exact hloud

/-- Clearing changes nothing that a module reads in an acyclic graph. -/
theorem Acyclic.refreshed_clearPredecessors (ha : g.Acyclic) (hw : g.Wired) (m : M) (allowed : SpaceSet) :
    refreshed (clearPredecessors g m) m allowed = refreshed g m allowed := by
  unfold refreshed
  rw [clearPredecessors_self]
  refine congrArg (fun ports => ({ g m with
    ports := ports, intrinsecParameters := (g m).intrinsecParameters.trim allowed } : VpsimModule M D R)) ?_
  apply List.map_congr_left
  intro port hport
  cases hs : port.successor with
  | none => rfl
  | some s =>
    have hout : ¬ Reaches g.succs s m := ha m s (mem_successors.mpr ⟨port, hport, hs⟩)
    dsimp only
    rw [hw.clearPredecessors_of_not_reaches hout]

end

variable [LinearOrder D] [Add D] [HMul D R D] [DecidableEq R] {g t t' : Graph M D R} {m : M} {next : List M}

omit [DecidableEq M] [Fintype M] [DecidableEq R] in
theorem settled_of_same {j : M} (h : g.Settled j) (hj : t j = g j)
    (hsucc : ∀ s ∈ (g j).successors, (t s).exportedParameters = (g s).exportedParameters) : t.Settled j :=
  h.congr (by rw [hj]) (by rw [hj]) (by rw [hj]) (by rw [hj]) hsucc

/-- A refresh settles a module from which its own one cannot be reached only if it was settled before. -/
theorem During.settled_outside_iff (h : During g m t) {z : M} (hz : ¬ Reaches g.succs z m) :
    t.Settled z ↔ g.Settled z := by
  have hsame : ∀ s ∈ (g z).successors, t s = g s := fun s hs => h.outside s fun hsm => hz (.head hs hsm)
  constructor
  · intro hsettled
    refine settled_of_same hsettled (h.outside z hz).symm fun s hs => ?_
    rw [h.shape.successors] at hs
    rw [hsame s hs]
  · intro hsettled
    refine settled_of_same hsettled (h.outside z hz) fun s hs => ?_
    rw [hsame s hs]

omit [DecidableEq R] in
/-- A cleared module that exported nothing is settled, whatever its modifiers. -/
theorem settled_clearPredecessors (hr : g.Ranged) {q : M} (hconsistent : g.Consistent q)
    (he : (g q).exportedParameters = empty) : (clearPredecessors g m).Settled q := by
  obtain ⟨exported, hx⟩ := clearPredecessors_apply g m q
  have hempty (x : M) (hx : (g x).exportedParameters = empty) :
      (clearPredecessors g m x).exportedParameters = empty := by
    rw [clearPredecessors_eq, clearedOn]
    split
    · rfl
    · exact hx
  obtain ⟨hown, hports⟩ := hconsistent.exported.mp he
  refine ⟨fun port hport s hs => ?_, ?_⟩
  · rw [hx] at hport
    have heffective := ((hr q).effective port hport).eq_empty_iff.mpr (hports port hport)
    rw [heffective, hempty s ((hconsistent.effective port hport s hs).symm.trans heffective)]
  · rw [hempty q he, hx]
    exact (hr q).exportOf_of_silent hown hports

/-- The step at `m` goes on to its predecessors exactly when its export changes. -/
theorem next_of_step (hw : g.Wired) (ha : g.Acyclic)
    (hstep : refreshStep m (clearPredecessors g m) = .ok (t, next)) :
    ExportChanges g m ∧ next = (g m).predecessors ∨ ¬ ExportChanges g m ∧ next = [] := by
  obtain ⟨allowed, exported, hallowed, he, -, rfl⟩ := refreshStep_eq_ok hstep
  rw [getAllowedSpaces_congr (sameShape_clearPredecessors g m)] at hallowed
  rw [ha.refreshed_clearPredecessors hw] at he
  rw [clearPredecessors_self]
  by_cases hne : exported ≠ (g m).exportedParameters
  · exact Or.inl ⟨⟨allowed, exported, hallowed, he, hne⟩, if_pos hne⟩
  · refine Or.inr ⟨?_, if_neg hne⟩
    rintro ⟨allowed', exported', hallowed', he', hne'⟩
    rw [hallowed] at hallowed'
    obtain rfl := Except.ok.inj hallowed'
    rw [he] at he'
    exact hne (Except.ok.inj he' ▸ hne')

/-- A refresh that recomputes what it clears settles the graph. -/
theorem allSettled_of_recomputes (hw : g.Wired) (hr : g.Ranged) (ha : g.Acyclic)
    (hconsistent : ∀ j, j ≠ m → g.Consistent j) (houtside : ∀ j, ¬ Reaches g.succs j m → g.Settled j)
    (hcond : Recomputes g m) {fuel : ℕ}
    (hrun : refreshParameters fuel m g = .ok t) : t.AllSettled := by
  have hstart : During g m (clearPredecessors g m) := .start hr hw m
  have hsettles : Settles refreshStep (fun x => Reaches g.succs x m) (During g m) (fun j t => t.Settled j) :=
    During.settles hw ha
  have hend : During g m t := hsettles.toConfined.propagate .refl hstart hrun
  obtain ⟨hm, hkeep⟩ := hsettles.propagate .refl hstart hrun
  -- a module is settled as soon as the export of a successor has changed
  have hfollow : ∀ {x s s' next}, Reaches g.succs x m → During g m s → refreshStep x s = .ok (s', next) →
      ∀ y, (s' y).exportedParameters ≠ (s y).exportedParameters → ∀ j, y ∈ (g j).successors → j ∈ next := by
    intro x s s' next hx h hstep y hy j hj
    obtain ⟨rfl, rfl⟩ := step_follows hstep y hy
    rw [h.shape.predecessors, hw]
    exact hj
  have hchanged : ∀ y, (t y).exportedParameters ≠ (clearPredecessors g m y).exportedParameters →
      ∀ j, y ∈ (g j).successors → t.Settled j := hsettles.propagate_changed hfollow .refl hstart hrun
  have hdirect (hchanges : ExportChanges g m) : ∀ q, m ∈ (g q).successors → t.Settled q := by
    intro q hq
    obtain ⟨k, t₁, next, -, hstep, hrest⟩ := propagate_eq_ok hrun
    obtain ⟨-, rfl⟩ := (next_of_step hw ha hstep).resolve_right fun h => h.1 hchanges
    have hzone := hsettles.next .refl hstart hstep
    exact hsettles.foldlM hzone (hstart.step .refl hstep) hrest q (Or.inr ((hw q m).mpr hq))
  intro q
  induction q using ha.wellFounded.induction with
  | _ q ih =>
    by_cases hq : q = m
    · exact hq ▸ hm
    by_cases hqm : Reaches g.succs q m
    · by_cases he : (g q).exportedParameters = empty
      · exact hkeep q (settled_clearPredecessors hr (hconsistent q hq) he)
      obtain ⟨hchanges, hsucc⟩ := hcond q hq hqm he
      obtain hsucc | ⟨r, hr', hrm, y, hry, hy⟩ := hsucc
      · exact hdirect hchanges q hsucc
      by_cases hrm' : r = m
      · exact hdirect hchanges q (hrm' ▸ hr')
      -- the successor was cleared and exports something in the end
      apply hchanged r ?_ q hr'
      rw [hw.clearPredecessors_of_reaches hrm hrm']
      apply exported_ne_empty_of_reaches hend.ranged (y := y)
      · rw [hend.shape.succs]
        exact hry
      · intro z hz
        rw [hend.shape.succs] at hz
        exact ih z (.head' hr' hz)
      · exact hend.loud_of_keepsOwn hy
    · exact (hend.settled_outside_iff hqm).mpr (houtside q hqm)

/-- What a module from which `m` cannot be reached exports can be reached from it. -/
theorem During.supplied_outside (h : During g m t) (hr : g.Ranged) (ha : g.Acyclic)
    (houtside : ∀ j, ¬ Reaches g.succs j m → g.Settled j) {s : M} (hs : ¬ Reaches g.succs s m)
    (he : (t s).exportedParameters ≠ empty) : Supplied g m s := by
  rw [h.outside s hs] at he
  have hbelow (z : M) (hz : Reaches g.succs s z) : ¬ Reaches g.succs z m := fun hzm => hs (hz.trans hzm)
  obtain ⟨y, hy, hloud⟩ := exists_own_of_exported hr ha
    (fun z hz => houtside z (hbelow z hz)) he
  exact ⟨y, hy, Or.inr ⟨hbelow y hy, hloud⟩⟩

/-- A step gives its module an export only if something that propagates can be reached from it. -/
theorem During.supplied_step (h : During g m t) {x : M} (hx : Reaches g.succs x m)
    (hsucc : ∀ s ∈ (g x).successors, (t s).exportedParameters ≠ empty → Supplied g m s)
    (hstep : refreshStep x t = .ok (t', next)) (he : (t' x).exportedParameters ≠ empty) : Supplied g m x := by
  obtain ⟨allowed, exported, hallowed, hexport, rfl, -⟩ := refreshStep_eq_ok hstep
  rw [Function.update_self] at he
  have hranged := h.ranged.refreshed x (h.ranged.getAllowedSpaces hallowed)
  have hnot := mt (hranged.exportOf hexport).2.mpr he
  rw [getAllowedSpaces_congr h.shape] at hallowed
  by_cases hown : Silent ((t x).intrinsecParameters.trim allowed)
  · have hport : ∃ port ∈ (refreshed t x allowed).ports, ¬ Silent port.effectiveParameters := by
      by_contra hnone
      push Not at hnone
      exact hnot ⟨hown, hnone⟩
    obtain ⟨port, hport, hloud⟩ := hport
    cases hs : port.successor with
    | none =>
      rw [hranged.free port hport hs] at hloud
      exact absurd silent_empty hloud
    | some s =>
      have hmem : s ∈ (g x).successors := by
        rw [← h.shape.successors, ← successors_refreshed t x allowed]
        exact mem_successors.mpr ⟨port, hport, hs⟩
      rw [effective_refreshed hport hs] at hloud
      have hne : (t s).exportedParameters ≠ empty := by
        intro h0
        rw [h0] at hloud
        exact hloud silent_empty
      obtain ⟨y, hy, hkeeps⟩ := hsucc s hmem hne
      exact ⟨y, .head hmem hy, hkeeps⟩
  · exact ⟨x, .refl, Or.inl ⟨hx, allowed, hallowed, mt (h.own x allowed hallowed).mpr hown⟩⟩

/-- What holds during a call as long as the cleared module `q` is not refreshed. -/
structure Untouched (g : Graph M D R) (m q : M) (t : Graph M D R) : Prop where
  during : During g m t
  same : t q = g.cleared q
  supplied : ∀ x, Reaches g.succs x m → (t x).exportedParameters ≠ empty → Supplied g m x

section Untouched

variable {q : M}

/-- A step elsewhere leaves `q` cleared. -/
theorem Untouched.step (h : Untouched g m q t) (hr : g.Ranged) (ha : g.Acyclic)
    (houtside : ∀ j, ¬ Reaches g.succs j m → g.Settled j) {x : M} (hx : Reaches g.succs x m) (hxq : x ≠ q)
    (hstep : refreshStep x t = .ok (t', next)) : Untouched g m q t' := by
  have hsucc : ∀ s ∈ (g x).successors, (t s).exportedParameters ≠ empty → Supplied g m s := by
    intro s hs he
    by_cases hsm : Reaches g.succs s m
    · exact h.supplied s hsm he
    · exact h.during.supplied_outside hr ha houtside hsm he
  have hnew := h.during.supplied_step hx hsucc hstep
  refine ⟨h.during.step hx hstep, ?_, fun y hy he => ?_⟩
  · obtain ⟨allowed, exported, -, -, rfl, -⟩ := refreshStep_eq_ok hstep
    rw [Function.update_of_ne hxq.symm]
    exact h.same
  · by_cases hyx : y = x
    · rw [hyx] at he ⊢
      exact hnew he
    · obtain ⟨allowed, exported, -, -, rfl, -⟩ := refreshStep_eq_ok hstep
      rw [Function.update_of_ne hyx] at he
      exact h.supplied y hy he

/-- If nothing that propagates can be reached from the successors of `q` that lead to `m`, and `m` is not
one of them, the steps after the one at `m` stay away from `q`. -/
theorem Untouched.confined (hw : g.Wired) (hr : g.Ranged) (ha : g.Acyclic)
    (houtside : ∀ j, ¬ Reaches g.succs j m → g.Settled j) (hq : ∀ r ∈ (g q).successors, Reaches g.succs r m → ¬ Supplied g m r) :
    Confined refreshStep (fun x => Reaches g.succs x m ∧ x ≠ m ∧ x ≠ q) (Untouched g m q) where
  inv hx h hstep := h.step hr ha houtside hx.1 hx.2.2 hstep
  next := by
    intro x t t' next hx h hstep p hp
    have h' := h.step hr ha houtside hx.1 hx.2.2 hstep
    have hzone := (During.confined hw).next hx.1 h.during hstep p hp
    obtain ⟨allowed, exported, -, -, rfl, rfl⟩ := refreshStep_eq_ok hstep
    split at hp
    · rename_i hne
      rw [h.during.shape.predecessors, hw] at hp
      refine ⟨hzone, ?_, ?_⟩
      · rintro rfl
        exact ha p x hp hx.1
      · rintro rfl
        apply hq x hp hx.1
        -- the export of `x` has changed, so it was or is not empty
        by_cases he : (t x).exportedParameters = empty
        · apply h'.supplied x hx.1
          rw [Function.update_self]
          exact he ▸ hne
        · exact h.supplied x hx.1 he
    · cases hp

end Untouched

/-- A refresh that settles the graph has recomputed what it cleared. -/
theorem recomputes_of_allSettled (hw : g.Wired) (hr : g.Ranged) (ha : g.Acyclic)
    (hconsistent : ∀ j, j ≠ m → g.Consistent j) {fuel : ℕ} (hrun : refreshParameters fuel m g = .ok t)
    (hall : t.AllSettled) : Recomputes g m := by
  intro q hq hqm he
  by_contra hnot
  have hstart : During g m (clearPredecessors g m) := .start hr hw m
  have hend : During g m t := (During.confined hw).propagate .refl hstart hrun
  have houtside : ∀ j, ¬ Reaches g.succs j m → g.Settled j := fun j hj =>
    (hend.settled_outside_iff hj).mp (hall j)
  obtain ⟨k, t₁, next, -, hstep, hrest⟩ := propagate_eq_ok hrun
  have hfirst : ∀ y, y ≠ m → t₁ y = clearPredecessors g m y := by
    intro y hy
    obtain ⟨allowed, exported, -, -, rfl, -⟩ := refreshStep_eq_ok hstep
    exact Function.update_of_ne hy _ _
  have hcleared : t₁ q = g.cleared q := (hfirst q hq).trans (hw.clearPredecessors_of_reaches hqm hq)
  have hsame : t q = g.cleared q := by
    rcases next_of_step hw ha hstep with ⟨hchanges, rfl⟩ | ⟨-, rfl⟩
    · have hq' : ∀ r ∈ (g q).successors, Reaches g.succs r m → ¬ Supplied g m r :=
        fun r hrq hrm hsup => hnot ⟨hchanges, Or.inr ⟨r, hrq, hrm, hsup⟩⟩
      have hsupplied : ∀ x, Reaches g.succs x m → (t₁ x).exportedParameters ≠ empty → Supplied g m x := by
        intro x hx hex
        by_cases hxm : x = m
        · subst hxm
          refine hstart.supplied_step .refl (fun s hs => ?_) hstep hex
          exact hstart.supplied_outside hr ha houtside (ha x s hs)
        · rw [hfirst x hxm, hw.clearPredecessors_of_reaches hx hxm] at hex
          exact absurd rfl hex
      have hbegin : Untouched g m q t₁ := ⟨hstart.step .refl hstep, hcleared, hsupplied⟩
      refine ((Untouched.confined hw hr ha houtside hq').foldlM (fun p hp => ?_) hbegin hrest).same
      rw [hw] at hp
      refine ⟨.single hp, ?_, ?_⟩
      · rintro rfl
        exact ha p p hp .refl
      · rintro rfl
        exact hnot ⟨hchanges, Or.inl hp⟩
    · exact Except.ok.inj hrest ▸ hcleared
  have hexport := (hall q).exported
  rw [hsame] at hexport
  exact he ((hconsistent q hq).exported.mpr (((hr q).exportOf hexport).2.mp rfl))

/-- A refresh settles an acyclic graph exactly when the modules that it does not reach are settled and it
recomputes what it clears. -/
theorem allSettled_refresh_iff (hw : g.Wired) (hr : g.Ranged) (ha : g.Acyclic)
    (hconsistent : ∀ j, j ≠ m → g.Consistent j) {fuel : ℕ} (hrun : refreshParameters fuel m g = .ok t) :
    t.AllSettled ↔ (∀ j, ¬ Reaches g.succs j m → g.Settled j) ∧ Recomputes g m := by
  have hend : During g m t := (During.confined hw).propagate .refl (.start hr hw m) hrun
  constructor
  · intro hall
    exact ⟨fun j hj => (hend.settled_outside_iff hj).mp (hall j),
      recomputes_of_allSettled hw hr ha hconsistent hrun hall⟩
  · rintro ⟨houtside, hcond⟩
    exact allSettled_of_recomputes hw hr ha hconsistent houtside hcond hrun

end Vpsim.Core.Graph
