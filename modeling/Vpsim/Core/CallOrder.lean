import Vpsim.Core.DefiningEquations
import Vpsim.Core.Trimming
import Vpsim.Core.RangeQuery

/-!
# The order of the calls

A call trims the own parameters of its module to the memories that the module can reach at that moment. A
parameter that is set before the connections to its memory are made is lost, one that is set after them is
kept. Two orders of the same calls end alike when they keep the same parameters and lose no export on the
way.
-/

namespace Vpsim.Core

open Vpsim.Lib

namespace VpsimModule

variable {M D R : Type}

/-- `VpsimModule::getBlockingTLMEnabled` for an address; a port that the module does not have is undefined. -/
def getBlockingTLMEnabled (v : VpsimModule M D R) (defaultValue : BlockingTLMEnabled) (port addr : ℕ) :
    Option BlockingTLMEnabled :=
  v.ports[port]?.map fun p =>
    ParamContainer.getParameterValue defaultValue p.effectiveParameters.blockingTLMEnabledParameter addr

/-- `VpsimModule::getApproximateDelay` for an address. -/
def getApproximateDelay (v : VpsimModule M D R) (defaultDelay : D) (port addr : ℕ) : Option D :=
  v.ports[port]?.map fun p =>
    ParamContainer.getParameterValue defaultDelay p.effectiveParameters.approximateDelayParameter addr

end VpsimModule

/-- What the getters return for the ports of the modules, whatever the default values are. -/
def Graph.SeenAlike {M D R : Type} (g g' : Graph M D R) : Prop :=
  ∀ m port addr, (∀ value, (g m).getBlockingTLMEnabled value port addr =
      (g' m).getBlockingTLMEnabled value port addr) ∧
    ∀ delay, (g m).getApproximateDelay delay port addr = (g' m).getApproximateDelay delay port addr

namespace ModuleCall

open ParameterSet Vpsim.Core.Graph

variable {M D R : Type}

/-! ## What the calls leave -/

/-- The call attaches no modifier. -/
def Plain : ModuleCall M D R → Prop
  | .addParameterSetModifier _ _ => False
  | _ => True

/-- The two calls do not set parameters of one kind for one address of a module. -/
def Apart (c c' : ModuleCall M D R) : Prop :=
  ∀ m as has p as' has' p', c = .setParameter m as has p → c' = .setParameter m as' has' p' →
    p.SameKind p' → ∀ a ∈ as, a ∉ as'

/-- The two calls do not connect the same port. -/
def OtherPort (c c' : ModuleCall M D R) : Prop :=
  ∀ m x x' i, c = .addSuccessor m x i → c' ≠ .addSuccessor m x' i

theorem apart_symm {c c' : ModuleCall M D R} (h : c.Apart c') : c'.Apart c := by
  intro m as has p as' has' p' hc hc' hkind a haas haas'
  refine h m as' has' p' as has p hc' hc ?_ a haas' haas
  cases p with
  | blockingTLMEnabled v => cases p' <;> exact hkind
  | approximateDelay d => cases p' <;> exact hkind
  | approximateTraversalRate r => cases p' <;> exact hkind

theorem otherPort_symm {c c' : ModuleCall M D R} (h : c.OtherPort c') : c'.OtherPort c :=
  fun m x x' i hc hc' => h m x' x i hc' hc

variable [DecidableEq M]

/-- The connections that the calls make lead from the module to a memory that has this address. -/
def Provides (config : M → ModuleConfig) (calls : List (ModuleCall M D R)) (m : M) (a : ℕ) : Prop :=
  ∃ t, Reaches (edges calls) m t ∧ (config t).moduleType = .memoryMapped ∧ a ∈ (config t).ownAddrSpace

/-- The parameter is set for the address of the module after the connections that lead to a memory with this
address. -/
def Placed (config : M → ModuleConfig) (calls : List (ModuleCall M D R)) (m : M) (a : ℕ)
    (p : ModuleParameter D R) : Prop :=
  ∃ i as has, calls[i]? = some (.setParameter m as has p) ∧ a ∈ as ∧ Provides config (calls.take i) m a

/-- In both orders the connections that are made before a parameter is set provide the same addresses of its
range. -/
def ProvidedAlike (config : M → ModuleConfig) (calls calls' : List (ModuleCall M D R)) : Prop :=
  ∀ i j m as has p, calls[i]? = some (.setParameter m as has p) → calls'[j]? = some (.setParameter m as has p) →
    ∀ a ∈ as, (Provides config (calls.take i) m a ↔ Provides config (calls'.take j) m a)

/-- No module can reach two different spaces with an address that a parameter is set for. -/
def OneSpace (config : M → ModuleConfig) (calls : List (ModuleCall M D R)) : Prop :=
  ∀ m as has p, .setParameter m as has p ∈ calls → ∀ a ∈ as, ∀ s t,
    Reaches (edges calls) m s → Reaches (edges calls) m t →
    (config s).moduleType = .memoryMapped → (config t).moduleType = .memoryMapped →
    a ∈ (config s).ownAddrSpace → a ∈ (config t).ownAddrSpace → (config s).ownAddrSpace = (config t).ownAddrSpace

/-- The modules have the constant data that they were constructed with, no modifiers, and the connections that
the calls make. -/
structure Connected (config : M → ModuleConfig) (done : List (ModuleCall M D R)) (g : Graph M D R) : Prop where
  moduleType : ∀ m, (g m).moduleType = (config m).moduleType
  ownAddrSpace : ∀ m, (g m).ownAddrSpace = (config m).ownAddrSpace
  modifier : ∀ m, (g m).modifier = []
  length : ∀ m, (g m).ports.length = (config m).nbPort
  port : ∀ m i x, ((g m).ports.map OutPort.successor)[i]? = some (some x) ↔ .addSuccessor m x i ∈ done
  once : done.Pairwise OtherPort

/-- The modules are connected, and keep the parameters that have been set for addresses of the memories that
they could reach then. -/
structure Configured [LinearOrder D] [DecidableEq R] (config : M → ModuleConfig)
    (done : List (ModuleCall M D R)) (g : Graph M D R) : Prop extends Connected config done g where
  sound : ∀ m, (g m).intrinsecParameters.Sound
  compact : ∀ m, (g m).intrinsecParameters.Compact
  has : ∀ {m a p}, (g m).intrinsecParameters.Has a p ↔ Placed config done m a p

variable {config : M → ModuleConfig} {calls calls' done : List (ModuleCall M D R)} {c : ModuleCall M D R}
  {s s₁ s' : Assembly M D R} {g g' : Graph M D R} {m x : M} {a : ℕ} {p : ModuleParameter D R}

theorem mem_edges_iff : x ∈ edges calls m ↔ ∃ i, .addSuccessor m x i ∈ calls := by
  constructor
  · intro h
    obtain ⟨c, hc, hx⟩ := List.mem_filterMap.mp h
    cases c with
    | addSuccessor m' x' i =>
      obtain ⟨rfl, rfl⟩ : m' = m ∧ x' = x := by simpa using hx
      exact ⟨i, hc⟩
    | setParameter m' as has p => cases hx
    | addParameterSetModifier m' modifier => cases hx
  · rintro ⟨i, h⟩
    exact mem_edges h

/-- More calls make more connections. -/
theorem reaches_mono (h : done ⊆ calls) (hm : Reaches (edges done) m x) : Reaches (edges calls) m x := by
  refine Relation.ReflTransGen.mono (fun y z hyz => ?_) m x hm
  obtain ⟨i, hi⟩ := mem_edges_iff.mp hyz
  exact mem_edges (h hi)

theorem Provides.mono (hp : Provides config done m a) (h : done ⊆ calls) : Provides config calls m a := by
  obtain ⟨t, hmt, ht⟩ := hp
  exact ⟨t, reaches_mono h hmt, ht⟩

theorem Placed.provides (h : Placed config calls m a p) : Provides config calls m a := by
  obtain ⟨i, as, has, -, -, hp⟩ := h
  exact hp.mono (List.take_subset i calls)

/-- A parameter that is placed has been set. -/
theorem Placed.exists_mem (h : Placed config calls m a p) :
    ∃ as has, .setParameter m as has p ∈ calls ∧ a ∈ as := by
  obtain ⟨i, as, has, hi, ha, -⟩ := h
  exact ⟨as, has, List.mem_of_getElem? hi, ha⟩

/-- The last call places its parameter if the calls before it provide the address. -/
theorem placed_append_singleton : Placed config (done ++ [c]) m a p ↔
    Placed config done m a p ∨ (∃ as has, c = .setParameter m as has p ∧ a ∈ as) ∧ Provides config done m a := by
  constructor
  · rintro ⟨i, as, has, hi, ha, hp⟩
    rcases Nat.lt_trichotomy i done.length with hlt | rfl | hgt
    · rw [List.getElem?_append_left hlt] at hi
      rw [List.take_append_of_le_length hlt.le] at hp
      exact .inl ⟨i, as, has, hi, ha, hp⟩
    · rw [List.getElem?_concat_length] at hi
      rw [List.take_left] at hp
      exact .inr ⟨⟨as, has, Option.some.inj hi, ha⟩, hp⟩
    · rw [List.getElem?_eq_none (by rw [List.length_append, List.length_singleton]; omega)] at hi
      cases hi
  · rintro (⟨i, as, has, hi, ha, hp⟩ | ⟨⟨as, has, rfl, ha⟩, hp⟩)
    · have hlt := (List.getElem?_eq_some_iff.mp hi).1
      refine ⟨i, as, has, (List.getElem?_append_left hlt).trans hi, ha, ?_⟩
      rw [List.take_append_of_le_length hlt.le]
      exact hp
    · refine ⟨done.length, as, has, List.getElem?_concat_length, ha, ?_⟩
      rw [List.take_left]
      exact hp

theorem provides_append_setParameter {m' : M} {as : AddrSpace} {has : as.WellFormed} :
    Provides config (done ++ [.setParameter m' as has p]) m a ↔ Provides config done m a := by
  have hsame : edges (done ++ [.setParameter m' as has p]) = edges done := by
    funext y
    simp [edges]
  unfold Provides
  rw [hsame]

/-! ### Other orders -/

theorem reaches_perm (hperm : calls.Perm calls') : Reaches (edges calls') m x ↔ Reaches (edges calls) m x :=
  ⟨reaches_mono hperm.symm.subset, reaches_mono hperm.subset⟩

theorem acyclic_perm (hperm : calls.Perm calls') (ha : Acyclic calls) : Acyclic calls' := by
  intro m x hx hback
  obtain ⟨i, hi⟩ := mem_edges_iff.mp hx
  exact ha m x (mem_edges (hperm.mem_iff.mpr hi)) ((reaches_perm hperm).mp hback)

theorem oneSpace_perm (hperm : calls.Perm calls') (hone : OneSpace config calls) : OneSpace config calls' :=
  fun m as has p hmem a haas t t' hmt hmt' =>
    hone m as has p (hperm.mem_iff.mpr hmem) a haas t t' ((reaches_perm hperm).mp hmt) ((reaches_perm hperm).mp hmt')

theorem ProvidedAlike.symm (h : ProvidedAlike config calls calls') : ProvidedAlike config calls' calls :=
  fun i j m as has p hi hj a ha => (h j i m as has p hj hi a ha).symm

theorem ProvidedAlike.placed (h : ProvidedAlike config calls calls') (hsub : calls ⊆ calls')
    (hp : Placed config calls m a p) : Placed config calls' m a p := by
  obtain ⟨i, as, has, hi, ha, hprovides⟩ := hp
  obtain ⟨j, hj⟩ := List.mem_iff_getElem?.mp (hsub (List.mem_of_getElem? hi))
  exact ⟨j, as, has, hj, ha, (h i j m as has p hi hj a ha).mp hprovides⟩

/-! ### Connections -/

theorem Connected.mem_successors (h : Connected config done g) : x ∈ (g m).successors ↔ x ∈ edges done m := by
  rw [Graph.mem_successors, mem_edges_iff]
  simp only [← h.port]
  rw [← List.mem_iff_getElem?, List.mem_map]

theorem Connected.reaches (h : Connected config done g) : Reaches g.succs m x ↔ Reaches (edges done) m x := by
  have hedge : Edge g.succs = Edge (edges done) := by
    funext y z
    exact propext h.mem_successors
  unfold Reaches
  rw [hedge]

theorem Connected.provides (h : Connected config done g) : g.Provides m a ↔ Provides config done m a := by
  unfold Graph.Provides Provides
  simp only [h.reaches, h.moduleType, h.ownAddrSpace]

omit [DecidableEq M] in
theorem connected_construct (config : M → ModuleConfig) :
    Connected config ([] : List (ModuleCall M D R)) fun m => (config m).construct where
  moduleType _ := rfl
  ownAddrSpace _ := rfl
  modifier _ := rfl
  length _ := List.length_replicate
  port m i x := by
    refine iff_of_false (fun h => ?_) List.not_mem_nil
    have hmem := List.mem_of_getElem? h
    unfold ModuleConfig.construct at hmem
    simp at hmem
  once := .nil

omit [DecidableEq M] in
theorem Connected.of_shape (h : Connected config done g) (hshape : SameShape g g')
    (hports : ∀ j, (g' j).ports.map OutPort.successor = (g j).ports.map OutPort.successor) :
    Connected config done g' where
  moduleType j := (hshape.moduleType j).trans (h.moduleType j)
  ownAddrSpace j := (hshape.ownAddrSpace j).trans (h.ownAddrSpace j)
  modifier j := (hshape.modifier j).trans (h.modifier j)
  length j := by
    have hlength := congrArg List.length (hports j)
    rw [List.length_map, List.length_map] at hlength
    exact hlength.trans (h.length j)
  port j i x := by
    rw [hports]
    exact h.port j i x
  once := h.once

omit [DecidableEq M] in
/-- Two graphs that the same calls have connected have the same connections in the same ports. -/
theorem Connected.ports_eq (h : Connected config calls g) (h' : Connected config calls' g')
    (hsame : ∀ c, c ∈ calls ↔ c ∈ calls') (m : M) :
    (g m).ports.map OutPort.successor = (g' m).ports.map OutPort.successor := by
  have hlength : ((g m).ports.map OutPort.successor).length = ((g' m).ports.map OutPort.successor).length := by
    rw [List.length_map, List.length_map, h.length, h'.length]
  refine List.ext_getElem hlength fun i hi hi' => Option.ext fun x => ?_
  have hport := h.port m i x
  have hport' := h'.port m i x
  rw [List.getElem?_eq_getElem hi, Option.some.injEq] at hport
  rw [List.getElem?_eq_getElem hi', Option.some.injEq] at hport'
  rw [hport, hport', hsame]

/-- Before its refresh a call makes its own connection, in the port that it names. -/
theorem Connected.prepare (h : Connected config done s.graph) (hplain : c.Plain) (hprepare : c.prepare s = .ok s₁) :
    Connected config (done ++ [c]) s₁.graph := by
  cases c with
  | addSuccessor m x port =>
    obtain ⟨effective, hport, hg⟩ := Call.prepare_addSuccessor_eq_ok (withGraph_eq_ok hprepare).1
    have hfield {α : Type} (f : VpsimModule M D R → α) (hpreds : ∀ v preds, f { v with predecessors := preds } = f v)
        (hports : ∀ v ports, f { v with ports := ports } = f v) (j : M) : f (s₁.graph j) = f (s.graph j) := by
      rw [hg]
      exact (Call.field_addPredecessor f hpreds _ x m j).trans (field_update f (hports _ _) j)
    have hports (j : M) : (s₁.graph j).ports =
        if j = m then (s.graph m).ports.set port ⟨some x, effective⟩ else (s.graph j).ports := by
      rw [hg]
      refine (Call.field_addPredecessor VpsimModule.ports (fun _ _ => rfl) _ x m j).trans ?_
      split_ifs with hj
      · rw [hj, Function.update_self]
      · rw [Function.update_of_ne hj]
    have hfree : ((s.graph m).ports.map OutPort.successor)[port]? = some none := by
      rw [List.getElem?_map, hport]
      rfl
    refine ⟨fun j => ?_, fun j => ?_, fun j => ?_, fun j => ?_, fun j i y => ?_, ?_⟩
    · exact (hfield VpsimModule.moduleType (fun _ _ => rfl) (fun _ _ => rfl) j).trans (h.moduleType j)
    · exact (hfield VpsimModule.ownAddrSpace (fun _ _ => rfl) (fun _ _ => rfl) j).trans (h.ownAddrSpace j)
    · exact (hfield VpsimModule.modifier (fun _ _ => rfl) (fun _ _ => rfl) j).trans (h.modifier j)
    · rw [hports]
      split_ifs with hj
      · rw [hj, List.length_set]
        exact h.length m
      · exact h.length j
    · rw [hports, List.mem_append, List.mem_singleton, ← h.port]
      split_ifs with hj
      · subst hj
        rw [List.map_set, List.getElem?_set]
        have hlt : port < ((s.graph j).ports.map OutPort.successor).length :=
          (List.getElem?_eq_some_iff.mp hfree).1
        split_ifs with hi
        · subst hi
          rw [hfree]
          simp [eq_comm]
        · simp [Ne.symm hi]
      · simp [hj]
    · refine List.pairwise_append.mpr ⟨h.once, List.pairwise_singleton _ _, fun c hc c' hc' => ?_⟩
      rw [List.mem_singleton.mp hc']
      rintro m' y y' i rfl heq
      injection heq with hm hy hi
      subst hm hi
      have htaken := (h.port _ _ _).mpr hc
      rw [hfree] at htaken
      cases htaken
  | setParameter m as has p =>
    have hg := Except.ok.inj (prepare_setParameter_eq_ok hprepare)
    rw [← hg]
    have hfield {α : Type} (f : VpsimModule M D R → α)
        (hown : ∀ v own, f { v with intrinsecParameters := own } = f v) (j : M) :=
      field_update f (hown (s.graph m) ((s.graph m).intrinsecParameters.setParameter as p)) j
    refine ⟨fun j => ?_, fun j => ?_, fun j => ?_, fun j => ?_, fun j i y => ?_, ?_⟩
    · exact (hfield VpsimModule.moduleType (fun _ _ => rfl) j).trans (h.moduleType j)
    · exact (hfield VpsimModule.ownAddrSpace (fun _ _ => rfl) j).trans (h.ownAddrSpace j)
    · exact (hfield VpsimModule.modifier (fun _ _ => rfl) j).trans (h.modifier j)
    · rw [hfield VpsimModule.ports (fun _ _ => rfl) j]
      exact h.length j
    · rw [hfield VpsimModule.ports (fun _ _ => rfl) j, h.port]
      simp
    · refine List.pairwise_append.mpr ⟨h.once, List.pairwise_singleton _ _, fun c hc c' hc' => ?_⟩
      rw [List.mem_singleton.mp hc']
      intro m' y y' i _ heq
      cases heq
  | addParameterSetModifier m modifier => exact hplain.elim

/-- Before its refresh a call throws only if the port that it names does not exist or is taken. -/
theorem Connected.exists_prepare (h : Connected config done s.graph) (hplain : c.Plain)
    (hport : ∀ m x i, c = .addSuccessor m x i → i < (config m).nbPort) (honce : ∀ c' ∈ done, c'.OtherPort c) :
    ∃ s₁, c.prepare s = .ok s₁ := by
  cases c with
  | addSuccessor m x port =>
    have hlt : port < (s.graph m).ports.length := h.length m ▸ hport m x port rfl
    have hget : (s.graph m).ports[port]? = some (s.graph m).ports[port] := List.getElem?_eq_getElem hlt
    cases hp : (s.graph m).ports[port] with
    | mk successor effective =>
      cases successor with
      | none =>
        rw [hp] at hget
        unfold ModuleCall.prepare Call.prepare
        dsimp only
        rw [hget]
        exact ⟨_, rfl⟩
      | some y =>
        have htaken : .addSuccessor m y port ∈ done := by
          rw [← h.port, List.getElem?_map, hget, hp]
          rfl
        exact absurd rfl (honce _ htaken m y x port rfl)
  | setParameter m as has p => exact ⟨_, rfl⟩
  | addParameterSetModifier m modifier => exact hplain.elim

/-- Before its refresh a call adds the parameter that it sets, for the addresses that have none of its kind. -/
theorem has_prepare (hsound : ∀ j, (s.graph j).intrinsecParameters.Sound) (hplain : c.Plain)
    (hfree : ∀ m as has p, c = .setParameter m as has p →
      ∀ a q, q.SameKind p → (s.graph m).intrinsecParameters.Has a q → a ∉ as)
    (hprepare : c.prepare s = .ok s₁) (j : M) : (s₁.graph j).intrinsecParameters.Sound ∧
      ∀ a q, (s₁.graph j).intrinsecParameters.Has a q ↔
        (s.graph j).intrinsecParameters.Has a q ∨ ∃ as has, c = .setParameter j as has q ∧ a ∈ as := by
  have hunset (hsame : (s₁.graph j).intrinsecParameters = (s.graph j).intrinsecParameters)
      (hc : ∀ as has q, c ≠ .setParameter j as has q) : (s₁.graph j).intrinsecParameters.Sound ∧
      ∀ a q, (s₁.graph j).intrinsecParameters.Has a q ↔
        (s.graph j).intrinsecParameters.Has a q ∨ ∃ as has, c = .setParameter j as has q ∧ a ∈ as := by
    rw [hsame]
    refine ⟨hsound j, fun a q => (or_iff_left ?_).symm⟩
    rintro ⟨as, has, heq, -⟩
    exact hc as has q heq
  cases c with
  | addSuccessor m x port =>
    obtain ⟨effective, -, hg⟩ := Call.prepare_addSuccessor_eq_ok (withGraph_eq_ok hprepare).1
    refine hunset ?_ fun as has q heq => by cases heq
    rw [hg]
    exact (Call.field_addPredecessor VpsimModule.intrinsecParameters (fun _ _ => rfl) _ x m j).trans
      (field_update VpsimModule.intrinsecParameters (by rfl) j)
  | setParameter m as has p =>
    have hg := Except.ok.inj (prepare_setParameter_eq_ok hprepare)
    by_cases hj : j = m
    · subst hj
      have hself : (s₁.graph j).intrinsecParameters = (s.graph j).intrinsecParameters.setParameter as p := by
        rw [← hg, Function.update_self]
      rw [hself]
      refine ⟨sound_setParameter (hsound j) has p, fun a q => ?_⟩
      rw [has_setParameter (hsound j) has fun q hkind hq => hfree j as has p rfl a q hkind hq]
      refine or_congr_right ⟨?_, ?_⟩
      · rintro ⟨ha, rfl⟩
        exact ⟨as, has, rfl, ha⟩
      · rintro ⟨as', has', heq, ha⟩
        injection heq with _ has hp
        exact ⟨has ▸ ha, hp.symm⟩
    · refine hunset ?_ fun as' has' q heq => hj ?_
      · rw [← hg, Function.update_of_ne hj]
      · injection heq with hm
        exact hm.symm
  | addParameterSetModifier m modifier => exact hplain.elim

variable [LinearOrder D] [DecidableEq R]

theorem configured_construct (config : M → ModuleConfig) :
    Configured config ([] : List (ModuleCall M D R)) fun m => (config m).construct where
  toConnected := connected_construct config
  sound _ := sound_empty
  compact _ := compact_empty
  has := by
    refine iff_of_false not_has_empty ?_
    rintro ⟨i, as, has, hi, -⟩
    cases hi

variable [Fintype M] [Add D] [HMul D R D] {fuel : ℕ}

/-- A call keeps the parameters that have been placed and places its own one. -/
theorem Configured.run (h : Configured config done s.graph) (hf : Formed calls s) (ha : Acyclic calls)
    (hdone : done ++ [c] ⊆ calls) (hplain : c.Plain) (hapart : ∀ c' ∈ done, c'.Apart c) (hone : OneSpace config calls)
    (hrun : c.run fuel s = .ok s') : Configured config (done ++ [c]) s'.graph := by
  obtain ⟨s₁, hprepare, hrefresh, -⟩ := run_eq_ok hrun
  have hc : c ∈ calls := hdone (by simp)
  have hf₁ := hf.prepare hc hprepare
  have hconnected := h.toConnected.prepare hplain hprepare
  have hfree : ∀ m as has p, c = .setParameter m as has p →
      ∀ a q, q.SameKind p → (s.graph m).intrinsecParameters.Has a q → a ∉ as := by
    intro m as has p hc a q hkind hq
    obtain ⟨as', has', hmem, ha⟩ := (h.has.mp hq).exists_mem
    exact hapart _ hmem m as' has' q as has p rfl hc hkind a ha
  have hown := has_prepare h.sound hplain hfree hprepare
  have hone₁ : s₁.graph.Unambiguous := by
    intro m a p hp t t' hmt hmt' hmm hmm' hat hat'
    have hset : ∃ as has, .setParameter m as has p ∈ calls ∧ a ∈ as := by
      rcases ((hown m).2 a p).mp hp with hp | ⟨as, has, rfl, haas⟩
      · obtain ⟨as, has, hmem, haas⟩ := (h.has.mp hp).exists_mem
        exact ⟨as, has, hdone (List.mem_append_left _ hmem), haas⟩
      · exact ⟨as, has, hc, haas⟩
    obtain ⟨as, has, hmem, haas⟩ := hset
    rw [hconnected.moduleType] at hmm hmm'
    rw [hconnected.ownAddrSpace] at hat hat'
    rw [hconnected.ownAddrSpace, hconnected.ownAddrSpace]
    exact hone m as has p hmem a haas t t' (reaches_mono hdone (hconnected.reaches.mp hmt))
      (reaches_mono hdone (hconnected.reaches.mp hmt')) hmm hmm' hat hat'
  have hothers : ∀ j, j ≠ c.callee → Trimmed s₁.graph j s₁.graph := by
    intro j hj
    have hsame := ((prepare_fields hprepare).2 j hj).2
    refine ⟨hsame.symm ▸ h.compact j, fun {a p} hp => ?_⟩
    rw [hsame] at hp
    exact hconnected.provides.mpr ((h.has.mp hp).provides.mono (List.subset_append_left _ _))
  obtain ⟨htrimming, htrimmed⟩ := trimmed_refresh hf₁.wired hf₁.ranged (hf₁.acyclic ha) hconnected.modifier
    (fun j => (hown j).1) hone₁ hothers hrefresh
  refine ⟨hconnected.of_shape htrimming.shape htrimming.ports, htrimming.sound, fun m => (htrimmed m).compact,
    fun {m a p} => ?_⟩
  have hkept : (s'.graph m).intrinsecParameters.Has a p ↔
      (s₁.graph m).intrinsecParameters.Has a p ∧ s₁.graph.Provides m a :=
    ⟨fun hp => ⟨htrimming.old hp, (htrimmed m).provided hp⟩, fun hp => htrimming.kept hp.1 hp.2⟩
  rw [hkept, (hown m).2, h.has, hconnected.provides, placed_append_singleton, or_and_right]
  refine or_congr (and_iff_left_of_imp fun hp => hp.provides.mono (List.subset_append_left _ _)) ?_
  refine and_congr_right fun hset => ?_
  obtain ⟨as, has, hc, -⟩ := hset
  rw [hc]
  exact provides_append_setParameter

/-- A call that names a free port can only run out of depth. -/
theorem Configured.error_of_run (h : Configured config done s.graph) (hf : Formed calls s) (ha : Acyclic calls)
    (hc : c ∈ calls) (hplain : c.Plain) (hport : ∀ m x i, c = .addSuccessor m x i → i < (config m).nbPort)
    (honce : ∀ c' ∈ done, c'.OtherPort c) {e : Stop} (hrun : c.run fuel s = .error e) : e = .throws .outOfFuel := by
  obtain ⟨s₁, hprepare⟩ := h.toConnected.exists_prepare hplain hport honce
  have hf₁ := hf.prepare hc hprepare
  have hrefresh : c.run fuel s = withGraph s₁ (refreshParameters fuel c.callee s₁.graph) := by
    unfold ModuleCall.run
    rw [hprepare]
    rfl
  rw [hrefresh] at hrun
  cases hg : refreshParameters fuel c.callee s₁.graph with
  | ok g =>
    rw [hg] at hrun
    cases hrun
  | error f =>
    have hf := error_of_refresh hf₁.wired hf₁.ranged (hf₁.acyclic ha)
      (h.toConnected.prepare hplain hprepare).modifier hg
    rw [hg, hf] at hrun
    injection hrun with hrun
    exact hrun.symm

/-- A run that returns leaves the modules configured. If it names each port once, and only ports that exist, it
can only run out of depth. -/
theorem wp_configured (ha : Acyclic calls) (hplain : ∀ c ∈ calls, c.Plain) (hapart : calls.Pairwise Apart)
    (hone : OneSpace config calls) (fuel : ℕ) : wp (calls.forM (step fuel))
      (fun _ s => Formed calls s ∧ Configured config calls s.graph)
      (fun e _ => (∀ m x i, .addSuccessor m x i ∈ calls → i < (config m).nbPort) → calls.Pairwise OtherPort →
        e = .throws .outOfFuel) (.start config []) := by
  apply wp_forM_of fun rest s => ∃ done, calls = done ++ rest ∧ Formed calls s ∧ Configured config done s.graph
  · exact ⟨[], rfl, formed_start calls config [], configured_construct config⟩
  · rintro c rest s ⟨done, hcalls, hf, h⟩
    have hcalls' : calls = done ++ [c] ++ rest := by rw [hcalls, List.append_assoc, List.singleton_append]
    have hsub : done ++ [c] ⊆ calls := hcalls' ▸ List.subset_append_left _ _
    have hc : c ∈ calls := hsub (by simp)
    have hbefore {P : ModuleCall M D R → ModuleCall M D R → Prop} (hp : calls.Pairwise P) : ∀ c' ∈ done, P c' c := by
      rw [hcalls, List.pairwise_append] at hp
      exact fun c' hc' => hp.2.2 c' hc' c List.mem_cons_self
    unfold wp
    cases hrun : step fuel c s with
    | ok u s' =>
      have hcrun := step_eq_ok.mp hrun
      exact ⟨done ++ [c], hcalls', hf.run hc hcrun,
        h.run hf ha hsub (hplain c hc) (hbefore hapart) hone hcrun⟩
    | error e t =>
      intro hport honce
      have hcrun : c.run fuel s = .error e := by
        unfold step at hrun
        cases hcall : c.run fuel s with
        | ok s' =>
          rw [hcall] at hrun
          cases hrun
        | error e' =>
          rw [hcall] at hrun
          injection hrun with hrun
          rw [hrun]
      exact h.error_of_run hf ha hc (hplain c hc) (fun m x i heq => hport m x i (heq ▸ hc)) (hbefore honce) hcrun
  · rintro s ⟨done, hcalls, hf, h⟩
    rw [List.append_nil] at hcalls
    exact ⟨hf, hcalls ▸ h⟩

/-- A run that loses no export on the way leaves the modules settled. -/
theorem allSettled_of_along (ha : Acyclic calls)
    (hrecomputes : Along (step fuel) (Recomputes fuel) (.start config []) calls)
    (hrun : calls.forM (step fuel) (.start config []) = .ok ⟨⟩ s) : s.graph.AllSettled := by
  have hkeep : ∀ s, ∀ c ∈ calls, ∀ s', Formed calls s ∧ s.graph.AllSettled → Recomputes fuel s c →
      step fuel c s = .ok ⟨⟩ s' → Formed calls s' ∧ s'.graph.AllSettled := by
    rintro s c hc s' ⟨hf, hsettled⟩ hcond hstep
    have hcrun := step_eq_ok.mp hstep
    exact ⟨hf.run hc hcrun, (allSettled_run_iff hf ha hsettled hc hcrun).mpr hcond⟩
  exact (hrecomputes.of_forM_ok hkeep ⟨formed_start calls config [], allSettled_construct config⟩ hrun).2

/-! ## Two orders of the same calls -/

omit [DecidableEq M] [Fintype M] in
theorem exportOf_eq_ok_iff {v : VpsimModule M D R} {e : ParameterSet D R} :
    v.exportOf = .ok e ↔ returnsWith (fun e' => decide (e' = e)) v.exportOf = true := by
  cases v.exportOf with
  | ok e' => simp [returnsWith]
  | error f => simp [returnsWith]

instance (g : Graph M D R) (m : M) : Decidable (g.Settled m) :=
  decidable_of_iff ((∀ port ∈ (g m).ports, ∀ s, port.successor = some s →
      port.effectiveParameters = (g s).exportedParameters) ∧
      returnsWith (fun e => decide (e = (g m).exportedParameters)) (g m).exportOf = true)
    ⟨fun h => ⟨h.1, exportOf_eq_ok_iff.mpr h.2⟩, fun h => ⟨h.effective, exportOf_eq_ok_iff.mp h.exported⟩⟩

instance (g : Graph M D R) : Decidable g.AllSettled := inferInstanceAs (Decidable (∀ m, g.Settled m))

/-- Whether every call of the run returns and leaves all modules settled. -/
def settlesAlong (fuel : ℕ) : Assembly M D R → List (ModuleCall M D R) → Bool
  | _, [] => true
  | s, c :: rest =>
    match c.run fuel s with
    | .ok s' => decide s'.graph.AllSettled && settlesAlong fuel s' rest
    | .error _ => false

/-- A run that passes the test returns and loses no export on the way. -/
theorem along_of_settlesAlong (ha : Acyclic calls) (fuel : ℕ) {rest : List (ModuleCall M D R)} (hrest : rest ⊆ calls)
    (hf : Formed calls s) (hsettled : s.graph.AllSettled) (h : settlesAlong fuel s rest = true) :
    Along (step fuel) (Recomputes fuel) s rest ∧ ∃ s', rest.forM (step fuel) s = .ok ⟨⟩ s' := by
  induction rest generalizing s with
  | nil => exact ⟨trivial, s, rfl⟩
  | cons c rest ih =>
    have hc : c ∈ calls := hrest List.mem_cons_self
    cases hrun : c.run fuel s with
    | error e =>
      rw [settlesAlong, hrun] at h
      cases h
    | ok t =>
      rw [settlesAlong, hrun, Bool.and_eq_true, decide_eq_true_eq] at h
      have hstep := step_eq_ok.mpr hrun
      obtain ⟨halong, s', hs'⟩ := ih (fun x hx => hrest (List.mem_cons_of_mem _ hx)) (hf.run hc hrun) h.1 h.2
      refine ⟨⟨(allSettled_run_iff hf ha hsettled hc hrun).mp h.1, fun t' ht' => ?_⟩, s', ?_⟩
      · rw [hstep] at ht'
        injection ht' with _ ht'
        exact ht' ▸ halong
      · exact (bind_of_ok hstep).trans hs'

/-! ### A bridge between a module and a memory -/

/-- A module that is to be connected to a memory over a bridge. -/
inductive Chain where
  | master
  | bridge
  | memory
deriving DecidableEq

instance : Fintype Chain := ⟨{.master, .bridge, .memory}, fun m => by cases m <;> decide⟩

/-- The module and the bridge have one port each. -/
def chainConfig : Chain → ModuleConfig
  | .master => ⟨.intermediate, AddrSpace.maxRange, AddrSpace.maxRange_wellFormed, 1⟩
  | .bridge => ⟨.intermediate, AddrSpace.maxRange, AddrSpace.maxRange_wellFormed, 1⟩
  | .memory => ⟨.memoryMapped, ⟨0x100, 0x1ff⟩, pairSpace_wellFormed, 0⟩

theorem lowerHalf_wellFormed : (AddrSpace.mk 0x100 0x17f).WellFormed := by decide

/-- How far down the chain a module is. -/
def Chain.depth : Chain → ℕ
  | .master => 0
  | .bridge => 1
  | .memory => 2

/-- The memory is given a delay, the bridge is connected to it and enabled. -/
def lowerCalls : List (ModuleCall Chain ℕ ℕ) :=
  [.setParameter .memory ⟨0x100, 0x1ff⟩ pairSpace_wellFormed (.approximateDelay 5),
    .addSuccessor .bridge .memory 0,
    .setParameter .bridge ⟨0x100, 0x17f⟩ lowerHalf_wellFormed (.blockingTLMEnabled .enabled)]

/-- The module is connected to the bridge. -/
def upperCalls : List (ModuleCall Chain ℕ ℕ) := [.addSuccessor .master .bridge 0]

theorem acyclic_bottomUp : Acyclic (lowerCalls ++ upperCalls) := by
  intro m x hx
  refine not_reaches_of_rank Chain.depth ?_ hx
  decide

theorem plain_bottomUp : ∀ c ∈ lowerCalls ++ upperCalls, c.Plain := by
  simp [lowerCalls, upperCalls, Plain]

theorem apart_bottomUp : (lowerCalls ++ upperCalls).Pairwise Apart := by
  have hnone : ∀ c ∈ ([] : List (ModuleCall Chain ℕ ℕ)), Apart (.addSuccessor .master .bridge 0) c :=
    fun c hc => absurd hc List.not_mem_nil
  refine .cons (fun c hc => ?_) (.cons (fun c hc => ?_) (.cons (fun c hc => ?_) (.cons hnone .nil)))
  · rintro m as has p as' has' p' h rfl
    injection h with hm
    subst hm
    simp [upperCalls] at hc
  · intro m as has p as' has' p' heq
    cases heq
  · rintro m as has p as' has' p' h rfl
    simp [upperCalls] at hc

theorem oneSpace_bottomUp : OneSpace chainConfig (lowerCalls ++ upperCalls) := by
  intro m as has p _ a _ x y _ _ hx hy _ _
  have honly : ∀ x, (chainConfig x).moduleType = .memoryMapped → x = .memory := by decide
  rw [honly x hx, honly y hy]

/-- Each of the calls sets its parameter for addresses that its module can reach then. -/
theorem provides_of_lowerCalls {i : ℕ} {m : Chain} {as : AddrSpace} {has : as.WellFormed}
    {p : ModuleParameter ℕ ℕ} (hi : lowerCalls[i]? = some (.setParameter m as has p)) {a : ℕ} (ha : a ∈ as) :
    Provides chainConfig (lowerCalls.take i) m a := by
  rcases i with _ | _ | _ | i
  · injection Option.some.inj hi with hm has
    subst hm has
    exact ⟨.memory, .refl, rfl, ha⟩
  · cases hi
  · injection Option.some.inj hi with hm has
    subst hm has
    have hconnected : Chain.memory ∈ edges (lowerCalls.take 2) .bridge := by decide
    refine ⟨.memory, .single hconnected, rfl, ?_⟩
    rw [AddrSpace.mem_def] at ha ⊢
    exact ⟨ha.1, ha.2.trans (by decide)⟩
  · cases hi

theorem providedAlike_bottomUp :
    ProvidedAlike chainConfig (lowerCalls ++ upperCalls) (upperCalls ++ lowerCalls) := by
  intro i j m as has p hi hj a ha
  have hlast (x y : Chain) (k : ℕ) : upperCalls[k]? ≠ some (.setParameter m as has p) := by
    intro hk
    simpa [upperCalls] using List.mem_of_getElem? hk
  refine iff_of_true ?_ ?_
  · rcases Nat.lt_or_ge i lowerCalls.length with hlt | hge
    · rw [List.getElem?_append_left hlt] at hi
      rw [List.take_append_of_le_length hlt.le]
      exact provides_of_lowerCalls hi ha
    · rw [List.getElem?_append_right hge] at hi
      exact absurd hi (hlast m m _)
  · cases j with
    | zero => exact absurd hj (hlast m m 0)
    | succ j => exact (provides_of_lowerCalls hj ha).mono (List.subset_cons_self _ _)

/-- The bridge is enabled before it is connected to the memory. -/
def enableBetween : List (ModuleCall Chain ℕ ℕ) :=
  [.addSuccessor .master .bridge 0,
    .setParameter .bridge ⟨0x100, 0x17f⟩ lowerHalf_wellFormed (.blockingTLMEnabled .enabled),
    .addSuccessor .bridge .memory 0]

/-- The bridge is enabled after it has been connected to the memory. -/
def enableLast : List (ModuleCall Chain ℕ ℕ) :=
  [.addSuccessor .master .bridge 0,
    .addSuccessor .bridge .memory 0,
    .setParameter .bridge ⟨0x100, 0x17f⟩ lowerHalf_wellFormed (.blockingTLMEnabled .enabled)]

end ModuleCall

end Vpsim.Core
