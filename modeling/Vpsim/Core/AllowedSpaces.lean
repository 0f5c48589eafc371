import Vpsim.Core.RefreshSpec
import Vpsim.Core.ModifierChain

/-!
# The address spaces that a module can reach

`getAllowedSpaces` walks the graph depth first with one list of called modules for all branches.
A module that can be reached along several paths is called on the first of them only: at each
module on the way, through the first port from which it can be reached. Its space comes back
translated along that path; the other paths contribute nothing.
-/

namespace Vpsim.Core.Graph

open Vpsim.Lib ParameterSetModifier

variable {M D R : Type}

/-- The connected successors of a module. -/
def succs (g : Graph M D R) (m : M) : List M := (g m).successors

/-- There is no way from a module back to itself. -/
def Acyclic (g : Graph M D R) : Prop := ∀ m s, s ∈ (g m).successors → ¬ Reaches g.succs s m

/-- `k` is the own space of the memory-mapped module `t`, translated by the modifiers of all
modules on some path from `m` to `t`. -/
inductive Arrives (g : Graph M D R) (t : M) : M → AddrSpace → Prop where
  | own : (g t).moduleType = .memoryMapped → Arrives g t t ((g t).ownAddrSpace.moved (total (g t).modifier))
  | through {m s : M} {k : AddrSpace} : s ∈ (g m).successors → Arrives g t s k →
      Arrives g t m (k.moved (total (g m).modifier))

/-- The same along the first path: at each module it goes through the first port from which `t`
can be reached. -/
inductive FirstArrives (g : Graph M D R) (t : M) : M → AddrSpace → Prop where
  | own : (g t).moduleType = .memoryMapped → FirstArrives g t t ((g t).ownAddrSpace.moved (total (g t).modifier))
  | through {m s : M} {k : AddrSpace} {before after : List M} : (g m).successors = before ++ s :: after →
      (∀ r ∈ before, ¬ Reaches g.succs r t) → FirstArrives g t s k →
      FirstArrives g t m (k.moved (total (g m).modifier))

/-- A space that a module translates: its own one, or one that comes from a successor. -/
def Incoming (g : Graph M D R) (m : M) (k : AddrSpace) : Prop :=
  ((g m).moduleType = .memoryMapped ∧ k = (g m).ownAddrSpace) ∨ ∃ s ∈ (g m).successors, ∃ t, g.Arrives t s k

/-- No translation of a space on its way overflows, and the own spaces have 64-bit bounds. -/
structure NoOverflow (g : Graph M D R) : Prop where
  own : ∀ m, (g m).ownAddrSpace.Has64Bits
  within : ∀ m k, g.Incoming m k → k.Within (lowest (g m).modifier) (highest (g m).modifier)

theorem FirstArrives.arrives {g : Graph M D R} {t m : M} {k : AddrSpace} (h : g.FirstArrives t m k) :
    g.Arrives t m k := by
  induction h with
  | own hmm => exact .own hmm
  | through hsucc _ _ ih => exact .through (by rw [hsucc]; simp) ih

theorem FirstArrives.reaches {g : Graph M D R} {t m : M} {k : AddrSpace} (h : g.FirstArrives t m k) :
    Reaches g.succs m t := by
  induction h with
  | own _ => exact .refl
  | through hsucc _ _ ih =>
    refine Relation.ReflTransGen.head ?_ ih
    rw [Edge, succs, hsucc]
    simp

theorem arrives_iff {g : Graph M D R} {t m : M} {k : AddrSpace} :
    g.Arrives t m k ↔
      (t = m ∧ (g m).moduleType = .memoryMapped ∧ k = (g m).ownAddrSpace.moved (total (g m).modifier)) ∨
        ∃ s ∈ (g m).successors, ∃ k', g.Arrives t s k' ∧ k = k'.moved (total (g m).modifier) := by
  constructor
  · intro h
    cases h with
    | own hmm => exact Or.inl ⟨rfl, hmm, rfl⟩
    | through hs hk => exact Or.inr ⟨_, hs, _, hk, rfl⟩
  · rintro (⟨rfl, hmm, rfl⟩ | ⟨s, hs, k', hk, rfl⟩)
    · exact .own hmm
    · exact .through hs hk

theorem NoOverflow.has64Bits {g : Graph M D R} (h : g.NoOverflow) {t m : M} {k : AddrSpace}
    (hk : g.Arrives t m k) : k.Has64Bits := by
  have hmoved : ∀ {m k}, g.Incoming m k → (k.moved (total (g m).modifier)).Has64Bits := by
    intro m k hin
    have hlow := lowest_le (g m).modifier
    have hhigh := le_highest (g m).modifier
    have hwithin := h.within m k hin
    apply AddrSpace.has64Bits_moved
    unfold AddrSpace.Within at hwithin ⊢
    omega
  cases hk with
  | own hmm => exact hmoved (Or.inl ⟨hmm, rfl⟩)
  | through hs hk => exact hmoved (Or.inr ⟨_, hs, _, hk⟩)

/-- A space that comes along the first path through one of the modules of a list. -/
def FirstThrough (g : Graph M D R) (t : M) (done : List M) (k : AddrSpace) : Prop :=
  ∃ before s after, done = before ++ s :: after ∧ (∀ r ∈ before, ¬ Reaches g.succs r t) ∧ g.FirstArrives t s k

/-- One more module is on the first path only if no earlier one is. -/
theorem firstThrough_append_singleton {g : Graph M D R} {t s : M} {done : List M} {k : AddrSpace} :
    g.FirstThrough t (done ++ [s]) k ↔
      g.FirstThrough t done k ∨ (∀ r ∈ done, ¬ Reaches g.succs r t) ∧ g.FirstArrives t s k := by
  constructor
  · rintro ⟨before, s', after, hsplit, hfirst, hk⟩
    rcases List.eq_nil_or_concat after with rfl | ⟨after, x, rfl⟩
    · obtain ⟨rfl, hs⟩ := List.append_inj' hsplit rfl
      obtain rfl : s = s' := by simpa using hs
      exact Or.inr ⟨hfirst, hk⟩
    · rw [List.concat_eq_append, ← List.cons_append, ← List.append_assoc] at hsplit
      obtain ⟨rfl, -⟩ := List.append_inj' hsplit rfl
      exact Or.inl ⟨before, s', after, rfl, hfirst, hk⟩
  · rintro (⟨before, s', after, rfl, hfirst, hk⟩ | ⟨hfirst, hk⟩)
    · exact ⟨before, s', after ++ [s], by simp, hfirst, hk⟩
    · exact ⟨done, s, [], rfl, hfirst, hk⟩

/-- The first path to a module ends at the memory itself or goes through a successor, and then passes its
modifiers. -/
theorem firstArrives_iff {g : Graph M D R} {t m : M} {k : AddrSpace} :
    g.FirstArrives t m k ↔
      (t = m ∧ (g m).moduleType = .memoryMapped ∧ k = (g m).ownAddrSpace.moved (total (g m).modifier)) ∨
        ∃ k', g.FirstThrough t (g m).successors k' ∧ k = k'.moved (total (g m).modifier) := by
  constructor
  · intro h
    cases h with
    | own hmm => exact Or.inl ⟨rfl, hmm, rfl⟩
    | through hsucc hfirst hk => exact Or.inr ⟨_, ⟨_, _, _, hsucc, hfirst, hk⟩, rfl⟩
  · rintro (⟨rfl, hmm, rfl⟩ | ⟨k', ⟨before, s, after, hsucc, hfirst, hk⟩, rfl⟩)
    · exact .own hmm
    · exact .through hsucc hfirst hk

/-- The result of a call on `m`, with the list of modules called before it: the modules that can
be reached have been called, and the spaces of the new ones have come back along their first
paths. -/
structure SpacesOf (g : Graph M D R) (called : List M) (m : M) (r : List M × SpaceSet) : Prop where
  nodup : r.1.Nodup
  mem_called : ∀ x, x ∈ r.1 ↔ x ∈ called ∨ Reaches g.succs m x
  mem_spaces : ∀ k, k ∈ r.2.members ↔ ∃ t, t ∉ called ∧ g.FirstArrives t m k

/-- The state of the loop in a call on `m` after the successors in `done`. -/
structure LoopOf (g : Graph M D R) (called : List M) (m : M) (done : List M) (r : List M × SpaceSet) : Prop where
  nodup : r.1.Nodup
  mem_called : ∀ x, x ∈ r.1 ↔ x ∈ called ∨ x = m ∨ ∃ s ∈ done, Reaches g.succs s x
  mem_spaces : ∀ k, k ∈ r.2.members ↔ ∃ t, t ∉ called ∧ g.FirstThrough t done k

/-- The modules called so far that `m` can reach have been called with all that they reach. -/
def ClosedFrom (g : Graph M D R) (called : List M) (m : M) : Prop :=
  ∀ x ∈ called, Reaches g.succs m x → ∀ y, Reaches g.succs x y → y ∈ called

section Loop

variable {g : Graph M D R} {called : List M} {m s : M} {done : List M} {r : List M × SpaceSet}

/-- Before the loop only the module itself has been added to the list. -/
theorem LoopOf.start (hnodup : called.Nodup) (hm : m ∉ called) :
    g.LoopOf called m [] (called ++ [m], SpaceSet.empty) where
  nodup := List.nodup_append.mpr ⟨hnodup, List.nodup_singleton m, fun a ha b hb => by
    rw [List.mem_singleton.mp hb]
    exact fun h => hm (h ▸ ha)⟩
  mem_called x := by simp
  mem_spaces k := by
    refine iff_of_false List.not_mem_nil ?_
    rintro ⟨t, -, before, s, after, hsplit, -⟩
    exact absurd hsplit.symm (by simp)

/-- A successor that has been called already adds no first path. -/
theorem LoopOf.skip (h : g.LoopOf called m done r) (hacyclic : g.Acyclic) (hclosed : g.ClosedFrom called m)
    (hs : s ∈ (g m).successors) (hcalled : s ∈ r.1) : g.LoopOf called m (done ++ [s]) r := by
  -- Whatever `s` reaches has been called before the loop, or is reached from an earlier successor.
  have hold : ∀ x, Reaches g.succs s x → x ∈ called ∨ ∃ d ∈ done, Reaches g.succs d x := by
    intro x hsx
    rcases (h.mem_called s).mp hcalled with hs' | rfl | ⟨d, hd, hds⟩
    · exact Or.inl (hclosed s hs' (Relation.ReflTransGen.single hs) x hsx)
    · exact absurd .refl (hacyclic s s hs)
    · exact Or.inr ⟨d, hd, hds.trans hsx⟩
  refine ⟨h.nodup, fun x => ?_, fun k => ?_⟩
  · rw [h.mem_called x]
    simp only [List.mem_append, List.mem_singleton, or_and_right, exists_or, exists_eq_left]
    constructor
    · exact fun hx => hx.imp_right (Or.imp_right Or.inl)
    · rintro (hx | hx | hx | hx)
      · exact Or.inl hx
      · exact Or.inr (Or.inl hx)
      · exact Or.inr (Or.inr hx)
      · exact (hold x hx).imp_right Or.inr
  · rw [h.mem_spaces k]
    simp only [firstThrough_append_singleton]
    constructor
    · rintro ⟨t, ht, hk⟩
      exact ⟨t, ht, Or.inl hk⟩
    · rintro ⟨t, ht, hk | ⟨hfirst, hk⟩⟩
      · exact ⟨t, ht, hk⟩
      · rcases hold t hk.reaches with hin | ⟨d, hd, hdt⟩
        · exact absurd hin ht
        · exact absurd hdt (hfirst d hd)

/-- The list in the middle of the loop is closed from a successor that is not in it. -/
theorem LoopOf.closedFrom (h : g.LoopOf called m done r) (hacyclic : g.Acyclic) (hclosed : g.ClosedFrom called m)
    (hs : s ∈ (g m).successors) : g.ClosedFrom r.1 s := by
  intro x hx hsx y hxy
  rw [h.mem_called]
  rcases (h.mem_called x).mp hx with hx | rfl | ⟨d, hd, hdx⟩
  · exact Or.inl (hclosed x hx (Relation.ReflTransGen.head hs hsx) y hxy)
  · exact absurd hsx (hacyclic x s hs)
  · exact Or.inr (Or.inr ⟨d, hd, hdx.trans hxy⟩)

/-- A successor that is called adds the spaces of the modules that were not reached before. -/
theorem LoopOf.call (h : g.LoopOf called m done r) (hacyclic : g.Acyclic) (hs : s ∈ (g m).successors)
    {r' : List M × SpaceSet} (h' : g.SpacesOf r.1 s r') :
    g.LoopOf called m (done ++ [s]) (r'.1, r'.2.members.foldl (fun set as => set.insert as) r.2) := by
  have hnew : ∀ {t}, Reaches g.succs s t → (t ∉ r.1 ↔ t ∉ called ∧ ∀ d ∈ done, ¬ Reaches g.succs d t) := by
    intro t hst
    rw [h.mem_called t]
    have hne : t ≠ m := by
      rintro rfl
      exact hacyclic t s hs hst
    constructor
    · intro hout
      exact ⟨fun hin => hout (Or.inl hin), fun d hd hdt => hout (Or.inr (Or.inr ⟨d, hd, hdt⟩))⟩
    · rintro ⟨hcalled, hdone⟩ (hin | hin | ⟨d, hd, hdt⟩)
      · exact hcalled hin
      · exact hne hin
      · exact hdone d hd hdt
  refine ⟨h'.nodup, fun x => ?_, fun k => ?_⟩
  · rw [h'.mem_called x, h.mem_called x]
    simp only [List.mem_append, List.mem_singleton, or_and_right, exists_or, exists_eq_left, or_assoc]
  · rw [ParameterSet.mem_foldl_insert, h.mem_spaces k, h'.mem_spaces k]
    simp only [firstThrough_append_singleton]
    constructor
    · rintro (⟨t, ht, hk⟩ | ⟨t, ht, hk⟩)
      · exact ⟨t, ht, Or.inl hk⟩
      · obtain ⟨hcalled, hdone⟩ := (hnew hk.reaches).mp ht
        exact ⟨t, hcalled, Or.inr ⟨hdone, hk⟩⟩
    · rintro ⟨t, ht, hk | ⟨hdone, hk⟩⟩
      · exact Or.inl ⟨t, ht, hk⟩
      · exact Or.inr ⟨t, (hnew hk.reaches).mpr ⟨ht, hdone⟩, hk⟩

/-- After the loop the collected spaces, with the own one of a memory-mapped module, are
translated; none of them overflows. -/
theorem LoopOf.exists_translated (h : g.LoopOf called m (g m).successors r) (hover : g.NoOverflow) :
    ∃ allowed, applySpaces (if (g m).moduleType = .memoryMapped then r.2.insert (g m).ownAddrSpace else r.2)
        (g m).modifier = .ok allowed ∧
      ∀ k, k ∈ allowed.members ↔
        ((g m).moduleType = .memoryMapped ∧ k = (g m).ownAddrSpace.moved (total (g m).modifier)) ∨
          ∃ t, t ∉ called ∧ ∃ k', g.FirstThrough t (g m).successors k' ∧ k = k'.moved (total (g m).modifier) := by
  have hmem : ∀ k, k ∈ (if (g m).moduleType = .memoryMapped then r.2.insert (g m).ownAddrSpace else r.2).members ↔
      ((g m).moduleType = .memoryMapped ∧ k = (g m).ownAddrSpace) ∨
        ∃ t, t ∉ called ∧ g.FirstThrough t (g m).successors k := by
    intro k
    split_ifs with hmm
    · rw [SpaceSet.insert, SpaceSet.mem_insertMember, h.mem_spaces k]
      simp [hmm]
    · rw [h.mem_spaces k]
      simp [hmm]
  have hincoming : ∀ k ∈ (if (g m).moduleType = .memoryMapped then r.2.insert (g m).ownAddrSpace
      else r.2).members, g.Incoming m k ∧ k.Has64Bits := by
    intro k hk
    rcases (hmem k).mp hk with ⟨hmm, rfl⟩ | ⟨t, -, before, s, after, hsucc, -, hk⟩
    · exact ⟨Or.inl ⟨hmm, rfl⟩, hover.own m⟩
    · have hs : s ∈ (g m).successors := by
        rw [hsucc]
        simp
      exact ⟨Or.inr ⟨s, hs, t, hk.arrives⟩, hover.has64Bits hk.arrives⟩
  obtain ⟨allowed, hallowed, hres⟩ := (applySpaces_spec (g m).modifier _ fun k hk => (hincoming k hk).2).1
    fun k hk => hover.within m k (hincoming k hk).1
  refine ⟨allowed, hallowed, fun k => ?_⟩
  rw [hres k]
  simp only [hmem]
  constructor
  · rintro ⟨k', ⟨hmm, rfl⟩ | ⟨t, ht, hk'⟩, rfl⟩
    · exact Or.inl ⟨hmm, rfl⟩
    · exact Or.inr ⟨t, ht, k', hk', rfl⟩
  · rintro (⟨hmm, rfl⟩ | ⟨t, ht, k', hk', rfl⟩)
    · exact ⟨_, Or.inl ⟨hmm, rfl⟩, rfl⟩
    · exact ⟨k', Or.inr ⟨t, ht, hk'⟩, rfl⟩

end Loop

variable [DecidableEq M]

/-- The loop over the successors of `m`, when each call that it makes returns what it should. -/
theorem exists_loop {g : Graph M D R} (hacyclic : g.Acyclic) (fuel bound : ℕ) {called : List M} {m : M}
    (hclosed : g.ClosedFrom called m)
    (hcall : ∀ s c, c.Nodup → s ∉ c → g.ClosedFrom c s → bound ≤ c.length →
      ∃ r, getAllowedSpacesRec g fuel s c = .ok r ∧ g.SpacesOf c s r)
    (rest : List M) {done : List M} (hsucc : (g m).successors = done ++ rest) {r : List M × SpaceSet}
    (h : g.LoopOf called m done r) (hbound : bound ≤ r.1.length) :
    ∃ r', rest.foldlM (fun (r : List M × SpaceSet) s =>
        if s ∈ r.1 then Except.ok r
        else (getAllowedSpacesRec g fuel s r.1).bind fun res =>
          .ok (res.1, res.2.members.foldl (fun set as => set.insert as) r.2)) r = .ok r' ∧
      g.LoopOf called m (g m).successors r' := by
  induction rest generalizing done r with
  | nil => exact ⟨r, rfl, by rw [hsucc, List.append_nil]; exact h⟩
  | cons s rest ih =>
    have hs : s ∈ (g m).successors := by
      rw [hsucc]
      simp
    have hsucc' : (g m).successors = (done ++ [s]) ++ rest := by
      rw [hsucc]
      simp
    rw [List.foldlM_cons]
    by_cases hcalled : s ∈ r.1
    · simp only [hcalled, if_true]
      exact ih hsucc' (h.skip hacyclic hclosed hs hcalled) hbound
    · obtain ⟨res, hres, hspaces⟩ := hcall s r.1 h.nodup hcalled (h.closedFrom hacyclic hclosed hs) hbound
      simp only [hcalled, if_false, hres]
      refine ih hsucc' (h.call hacyclic hs hspaces) (hbound.trans ?_)
      refine (h.nodup.subperm fun x hx => ?_).length_le
      exact (hspaces.mem_called x).mpr (Or.inl hx)

variable [Fintype M]

/-- With a depth for every module that has not been called, a call on `m` returns. -/
theorem exists_getAllowedSpacesRec {g : Graph M D R} (hacyclic : g.Acyclic) (hover : g.NoOverflow) {fuel : ℕ}
    {m : M} {called : List M} (hnodup : called.Nodup) (hm : m ∉ called) (hclosed : g.ClosedFrom called m)
    (hfuel : Fintype.card M ≤ fuel + called.length) :
    ∃ r, getAllowedSpacesRec g fuel m called = .ok r ∧ g.SpacesOf called m r := by
  induction fuel generalizing m called with
  | zero =>
    have hlen := List.Nodup.length_le_card (List.nodup_cons.mpr ⟨hm, hnodup⟩)
    rw [List.length_cons] at hlen
    omega
  | succ fuel ih =>
    obtain ⟨r, hloop, hr⟩ := exists_loop hacyclic fuel (called.length + 1) hclosed
      (fun s c hc hs hcl hlen => ih hc hs hcl (by omega)) (g m).successors (List.nil_append _).symm
      (LoopOf.start hnodup hm) (by simp)
    obtain ⟨allowed, hallowed, hmem⟩ := hr.exists_translated hover
    rw [getAllowedSpacesRec_succ, hloop, Except.bind, hallowed]
    refine ⟨(r.1, allowed), rfl, hr.nodup, fun x => ?_, fun k => ?_⟩
    · rw [hr.mem_called x]
      refine or_congr_right ?_
      rw [Reaches, Relation.ReflTransGen.cases_head_iff]
      exact or_congr eq_comm Iff.rfl
    · rw [hmem k]
      simp only [firstArrives_iff (m := m)]
      constructor
      · rintro (⟨hmm, rfl⟩ | ⟨t, ht, k', hk', rfl⟩)
        · exact ⟨m, hm, Or.inl ⟨rfl, hmm, rfl⟩⟩
        · exact ⟨t, ht, Or.inr ⟨k', hk', rfl⟩⟩
      · rintro ⟨t, ht, ⟨-, hmm, rfl⟩ | ⟨k', hk', rfl⟩⟩
        · exact Or.inl ⟨hmm, rfl⟩
        · exact Or.inr ⟨t, ht, k', hk', rfl⟩

/-- With nothing called before, `getAllowedSpaces` returns exactly the spaces that arrive by first paths.
-/
theorem exists_getAllowedSpaces {g : Graph M D R} (hacyclic : g.Acyclic) (hover : g.NoOverflow) (m : M) :
    ∃ allowed, getAllowedSpaces g m = .ok allowed ∧
      ∀ k, k ∈ allowed.members ↔ ∃ t, g.FirstArrives t m k := by
  obtain ⟨r, hr, hspaces⟩ := exists_getAllowedSpacesRec hacyclic hover (m := m) List.nodup_nil
    List.not_mem_nil (fun x hx => absurd hx List.not_mem_nil) (Nat.le_add_right _ _)
  refine ⟨r.2, by rw [getAllowedSpaces, hr]; rfl, fun k => ?_⟩
  rw [hspaces.mem_spaces k]
  simp

/-- The call returns the spaces of all paths from `m` to memory-mapped modules. -/
def ReturnsAllPaths (g : Graph M D R) (m : M) : Prop :=
  ∃ allowed, getAllowedSpaces g m = .ok allowed ∧ ∀ k, k ∈ allowed.members ↔ ∃ t, g.Arrives t m k

/-- `getAllowedSpaces` returns the spaces of all paths exactly when each of them is also the space
of a first path. -/
theorem returnsAllPaths_iff {g : Graph M D R} (hacyclic : g.Acyclic) (hover : g.NoOverflow) (m : M) :
    g.ReturnsAllPaths m ↔ ∀ t k, g.Arrives t m k → ∃ t', g.FirstArrives t' m k := by
  obtain ⟨allowed, hallowed, hmem⟩ := exists_getAllowedSpaces hacyclic hover m
  constructor
  · rintro ⟨allowed', hallowed', hmem'⟩ t k hk
    rw [hallowed] at hallowed'
    obtain rfl := Except.ok.inj hallowed'
    exact (hmem k).mp ((hmem' k).mpr ⟨t, hk⟩)
  · intro hfirst
    refine ⟨allowed, hallowed, fun k => ?_⟩
    rw [hmem k]
    constructor
    · rintro ⟨t, hk⟩
      exact ⟨t, hk.arrives⟩
    · rintro ⟨t, hk⟩
      exact hfirst t k hk

/-! ## A memory behind two paths -/

theorem diamondSpace_wellFormed : (AddrSpace.mk 0x100 0x1ff).WellFormed := by decide

/-- An intermediate module with two ports, two intermediate modules with one, and a memory. -/
def diamondConfig : Fin 4 → ModuleConfig
  | 0 => ⟨.intermediate, AddrSpace.maxRange, AddrSpace.maxRange_wellFormed, 2⟩
  | 1 => ⟨.intermediate, AddrSpace.maxRange, AddrSpace.maxRange_wellFormed, 1⟩
  | 2 => ⟨.intermediate, AddrSpace.maxRange, AddrSpace.maxRange_wellFormed, 1⟩
  | 3 => ⟨.memoryMapped, ⟨0x100, 0x1ff⟩, diamondSpace_wellFormed, 0⟩

/-- The first module reaches the memory through the second, which translates, and the third. -/
def diamondCalls : List (Call (Fin 4) ℕ ℕ) :=
  [.addSuccessor 1 3 0, .addSuccessor 2 3 0, .addSuccessor 0 1 0, .addSuccessor 0 2 1,
   .addParameterSetModifier 1 (.addressTranslator 16 sixteen_lt false)]

/-- The shape of the graph after these calls. -/
structure Diamond (g : Graph (Fin 4) ℕ ℕ) : Prop where
  successors : ∀ m, (g m).successors = if m = 0 then [1, 2] else if m = 3 then [] else [3]
  modifier : ∀ m, (g m).modifier = if m = 1 then [.addressTranslator 16 sixteen_lt false] else []
  moduleType : ∀ m, (g m).moduleType = if m = 3 then .memoryMapped else .intermediate
  ownAddrSpace : ∀ m, (g m).ownAddrSpace = if m = 3 then ⟨0x100, 0x1ff⟩ else AddrSpace.maxRange

namespace Diamond

variable {g : Graph (Fin 4) ℕ ℕ} {t : Fin 4} {k : AddrSpace}

theorem acyclic (h : Diamond g) : g.Acyclic := by
  intro m s hs
  refine not_reaches_of_rank (fun m => m.val) (fun m s hs => ?_) hs
  rw [succs, h.successors] at hs
  revert m s
  decide

/-- At the memory only its own space arrives. -/
theorem arrives_memory (h : Diamond g) : g.Arrives t 3 k ↔ t = 3 ∧ k = ⟨0x100, 0x1ff⟩ := by
  rw [arrives_iff, h.moduleType, h.ownAddrSpace, h.modifier, h.successors]
  simp [total, AddrSpace.moved_zero]

theorem arrives_left (h : Diamond g) : g.Arrives t 1 k ↔ t = 3 ∧ k = ⟨0x110, 0x20f⟩ := by
  rw [arrives_iff, h.moduleType, h.modifier, h.successors]
  simp [h.arrives_memory, total, displacement, AddrSpace.moved]

theorem arrives_right (h : Diamond g) : g.Arrives t 2 k ↔ t = 3 ∧ k = ⟨0x100, 0x1ff⟩ := by
  rw [arrives_iff, h.moduleType, h.modifier, h.successors]
  simp [h.arrives_memory, total, AddrSpace.moved_zero]

theorem noOverflow (h : Diamond g) : g.NoOverflow := by
  refine ⟨fun m => ?_, fun m k hk => ?_⟩
  · rw [h.ownAddrSpace]
    revert m
    decide
  · rw [Incoming, h.moduleType, h.ownAddrSpace, h.successors] at hk
    rw [h.modifier]
    obtain rfl | rfl | rfl | rfl : m = 0 ∨ m = 1 ∨ m = 2 ∨ m = 3 := by omega
    · simp [h.arrives_left, h.arrives_right] at hk
      rcases hk with rfl | rfl
      · decide
      · decide
    · simp [h.arrives_memory] at hk
      subst hk
      decide
    · simp [h.arrives_memory] at hk
      subst hk
      decide
    · simp at hk
      subst hk
      decide

/-- The second module reaches the memory on one path, which is the first one. -/
theorem firstArrives_left (h : Diamond g) : g.FirstArrives 3 1 ⟨0x110, 0x20f⟩ := by
  have hmm : (g 3).moduleType = .memoryMapped := by
    rw [h.moduleType]
    rfl
  have hsucc : (g 1).successors = [] ++ 3 :: [] := by
    rw [h.successors]
    rfl
  refine firstArrives_iff.mpr (Or.inr ⟨_, ⟨[], 3, [], hsucc, fun r hr => absurd hr List.not_mem_nil, .own hmm⟩, ?_⟩)
  rw [h.ownAddrSpace, h.modifier, h.modifier]
  decide

/-- The memory does not appear where it is. -/
def lacksMemory (allowed : SpaceSet) : Bool := decide (AddrSpace.mk 0x100 0x1ff ∉ allowed.members)

/-- The space that comes back through the third module alone is not among the results. -/
theorem not_returnsAllPaths (h : Diamond g) (hallowed : returnsWith lacksMemory (getAllowedSpaces g 0) = true) :
    ¬ g.ReturnsAllPaths 0 := by
  obtain ⟨allowed, hok, hout⟩ := exists_ok_of_returnsWith hallowed
  rintro ⟨allowed', hok', hmem⟩
  rw [hok] at hok'
  obtain rfl := Except.ok.inj hok'
  refine of_decide_eq_true hout ((hmem _).mpr ⟨3, ?_⟩)
  rw [arrives_iff, h.modifier, h.successors]
  simp [h.arrives_right, total, AddrSpace.moved_zero]

end Diamond

instance (g : Graph (Fin 4) ℕ ℕ) : Decidable (Diamond g) :=
  decidable_of_iff (_ ∧ _ ∧ _ ∧ _) ⟨fun h => ⟨h.1, h.2.1, h.2.2.1, h.2.2.2⟩, fun h => ⟨h.1, h.2, h.3, h.4⟩⟩

/-- Behind the second module alone the memory is reached on one path, and the result is right. -/
theorem exists_returnsAllPaths :
    ∃ g : Graph (Fin 4) ℕ ℕ, Call.runAll 4 (fun m => (diamondConfig m).construct) diamondCalls = .ok g ∧
      g.ReturnsAllPaths 1 := by
  obtain ⟨g, hg, hdiamond⟩ := exists_ok_of_returnsWith (p := fun g => decide (Diamond g))
    (r := Call.runAll 4 (fun m => (diamondConfig m).construct) diamondCalls) (by decide +kernel)
  have h : Diamond g := of_decide_eq_true hdiamond
  refine ⟨g, hg, (returnsAllPaths_iff h.acyclic h.noOverflow 1).mpr fun t k hk => ⟨3, ?_⟩⟩
  obtain ⟨-, rfl⟩ := h.arrives_left.mp hk
  exact h.firstArrives_left

/-- The first module reaches the memory on two paths, and the second one is dropped. -/
theorem exists_not_returnsAllPaths :
    ∃ g : Graph (Fin 4) ℕ ℕ, Call.runAll 4 (fun m => (diamondConfig m).construct) diamondCalls = .ok g ∧
      g.Acyclic ∧ g.NoOverflow ∧ ¬ g.ReturnsAllPaths 0 := by
  obtain ⟨g, hg, htest⟩ := exists_ok_of_returnsWith
    (p := fun g => decide (Diamond g) && returnsWith Diamond.lacksMemory (getAllowedSpaces g 0))
    (r := Call.runAll 4 (fun m => (diamondConfig m).construct) diamondCalls) (by decide +kernel)
  obtain ⟨hdiamond, hallowed⟩ := Bool.and_eq_true_iff.mp htest
  have h : Diamond g := of_decide_eq_true hdiamond
  exact ⟨g, hg, h.acyclic, h.noOverflow, h.not_returnsAllPaths hallowed⟩

end Vpsim.Core.Graph
