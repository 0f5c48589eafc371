import Mathlib.Data.Fintype.Card
import Mathlib.Data.List.Nodup

/-!
# Chains of linked cells

A cell holds a value and points to the next cell, or to none. Chains may share their last part. A chain
that ends meets no cell twice, so a step for every cell is enough to go through it. A new cell that is
linked to the end of a chain makes all chains with this end longer by the same cells, and leaves the
other chains alone.
-/

namespace Vpsim.Lib

/-- A value, and the place of the next cell. -/
structure Cell (α : Type*) where
  value : α
  next : Option ℕ
deriving DecidableEq, Repr

variable {α : Type*} {cells : List (Cell α)} {p : Option ℕ} {l : List ℕ} {e : ℕ} {c : Cell α}

/-- The places of the cells from `p` to the end of the chain, if it ends within `n` steps. -/
def follow (cells : List (Cell α)) : ℕ → Option ℕ → Option (List ℕ)
  | _, none => some []
  | 0, some _ => none
  | n + 1, some i =>
    match cells[i]? with
    | none => none
    | some c => (follow cells n c.next).map (i :: ·)

/-- The places of the cells from `p` to the end of the chain, if it ends. -/
def places (cells : List (Cell α)) (p : Option ℕ) : Option (List ℕ) := follow cells cells.length p

/-- The values of the cells at the places `l`. -/
def cellValues (cells : List (Cell α)) (l : List ℕ) : List α := l.filterMap fun i => cells[i]?.map Cell.value

/-- The values from `p` to the end of the chain, if it ends. -/
def chainValues (cells : List (Cell α)) (p : Option ℕ) : Option (List α) :=
  (places cells p).map (cellValues cells)

/-- The chain from `p` goes through the places `l` and ends. -/
inductive Path (cells : List (Cell α)) : Option ℕ → List ℕ → Prop where
  | nil : Path cells none []
  | cons {i : ℕ} {c : Cell α} {l : List ℕ} (hi : cells[i]? = some c) (rest : Path cells c.next l) :
      Path cells (some i) (i :: l)

namespace Path

/-- A chain is determined by where it starts. -/
theorem unique {k : List ℕ} (h : Path cells p l) (h' : Path cells p k) : l = k := by
  induction h generalizing k with
  | nil =>
    cases h'
    rfl
  | cons hi _ ih =>
    cases h' with
    | cons hi' rest' =>
      rw [hi] at hi'
      obtain rfl := Option.some.inj hi'
      rw [ih rest']

/-- The chain from a place on the way is the rest of the chain. -/
theorem split (h : Path cells p l) (he : e ∈ l) : ∃ l₀ l₁, l = l₀ ++ e :: l₁ ∧ Path cells (some e) (e :: l₁) := by
  induction h with
  | nil => cases he
  | cons hi rest ih =>
    rcases List.mem_cons.mp he with rfl | he
    · exact ⟨[], _, rfl, .cons hi rest⟩
    · obtain ⟨l₀, l₁, rfl, hpath⟩ := ih he
      exact ⟨_ :: l₀, l₁, rfl, hpath⟩

/-- A chain that ends meets no place twice. -/
theorem nodup (h : Path cells p l) : l.Nodup := by
  induction h with
  | nil => exact List.nodup_nil
  | cons hi rest ih =>
    refine List.nodup_cons.mpr ⟨fun hmem => ?_, ih⟩
    obtain ⟨l₀, l₁, rfl, hpath⟩ := rest.split hmem
    have hsame := congrArg List.length (hpath.unique (.cons hi rest))
    rw [List.length_cons, List.length_cons, List.length_append, List.length_cons] at hsame
    omega

theorem lt_length (h : Path cells p l) : ∀ i ∈ l, i < cells.length := by
  induction h with
  | nil => exact fun i hi => absurd hi List.not_mem_nil
  | cons hi _ ih =>
    intro j hj
    rcases List.mem_cons.mp hj with rfl | hj
    · exact (List.getElem?_eq_some_iff.mp hi).1
    · exact ih j hj

theorem length_le (h : Path cells p l) : l.length ≤ cells.length := by
  have hsub : l ⊆ List.range cells.length := fun i hi => List.mem_range.mpr (h.lt_length i hi)
  have hle := (h.nodup.subperm hsub).length_le
  rwa [List.length_range] at hle

theorem follow_eq (h : Path cells p l) {n : ℕ} (hn : l.length ≤ n) : follow cells n p = some l := by
  induction h generalizing n with
  | nil =>
    unfold follow
    rfl
  | cons hi _ ih =>
    obtain ⟨n, rfl⟩ : ∃ k, n = k + 1 := ⟨n - 1, by rw [List.length_cons] at hn; omega⟩
    rw [follow, hi]
    dsimp only
    rw [ih (Nat.le_of_succ_le_succ hn)]
    rfl

end Path

theorem path_of_follow {n : ℕ} (h : follow cells n p = some l) : Path cells p l := by
  induction n generalizing p l with
  | zero =>
    cases p with
    | none =>
      rw [follow] at h
      obtain rfl := Option.some.inj h
      exact .nil
    | some i => cases h
  | succ n ih =>
    cases p with
    | none =>
      rw [follow] at h
      obtain rfl := Option.some.inj h
      exact .nil
    | some i =>
      rw [follow] at h
      split at h
      · cases h
      · rename_i c hi
        obtain ⟨rest, hrest, rfl⟩ := Option.map_eq_some_iff.mp h
        exact .cons hi (ih hrest)

/-- A step for every cell is enough to go through a chain that ends. -/
theorem places_eq_some : places cells p = some l ↔ Path cells p l :=
  ⟨path_of_follow, fun h => h.follow_eq h.length_le⟩

theorem chainValues_of_path (h : Path cells p l) : chainValues cells p = some (cellValues cells l) := by
  rw [chainValues, places_eq_some.mpr h]
  rfl

theorem exists_path_of_chainValues {values : List α} (h : chainValues cells p = some values) :
    ∃ l, Path cells p l ∧ cellValues cells l = values := by
  obtain ⟨l, hl, hvalues⟩ := Option.map_eq_some_iff.mp h
  exact ⟨l, places_eq_some.mp hl, hvalues⟩

theorem cellValues_append (l k : List ℕ) : cellValues cells (l ++ k) = cellValues cells l ++ cellValues cells k :=
  List.filterMap_append

/-! ## A new cell at the end -/

/-- The cell `c` is new, and the one at `e` points to it. -/
def link (cells : List (Cell α)) (e : ℕ) (c : Cell α) : List (Cell α) :=
  cells.modify e (fun last => { last with next := some cells.length }) ++ [c]

theorem link_getElem?_ne {i : ℕ} (hi : i < cells.length) (hne : i ≠ e) : (link cells e c)[i]? = cells[i]? := by
  rw [link, List.getElem?_append_left (by rwa [List.length_modify]), List.getElem?_modify_ne _ _ hne.symm]

theorem link_getElem?_end {last : Cell α} (he : cells[e]? = some last) :
    (link cells e c)[e]? = some { last with next := some cells.length } := by
  have hlt := (List.getElem?_eq_some_iff.mp he).1
  rw [link, List.getElem?_append_left (by rwa [List.length_modify]), List.getElem?_modify_eq, he]
  rfl

theorem link_getElem?_new : (link cells e c)[cells.length]? = some c := by
  rw [link, List.getElem?_append_right (List.length_modify _ _ _).le, List.length_modify, Nat.sub_self]
  rfl

/-- The cells that were there keep their values. -/
theorem cellValues_link (hl : ∀ i ∈ l, i < cells.length) : cellValues (link cells e c) l = cellValues cells l := by
  refine List.filterMap_congr fun i hi => ?_
  by_cases hie : i = e
  · subst hie
    rw [link_getElem?_end (List.getElem?_eq_getElem (hl i hi)), List.getElem?_eq_getElem (hl i hi)]
    rfl
  · rw [link_getElem?_ne (hl i hi) hie]

/-- A chain without the place stays as it is. -/
theorem Path.link_of_not_mem (h : Path cells p l) (he : e ∉ l) : Path (link cells e c) p l := by
  induction h with
  | nil => exact .nil
  | cons hi _ ih =>
    rw [List.mem_cons, not_or] at he
    refine .cons ?_ (ih he.2)
    rw [link_getElem?_ne (List.getElem?_eq_some_iff.mp hi).1 (Ne.symm he.1)]
    exact hi

/-- A chain with this end goes on with the new cell and what follows it. -/
theorem Path.link_of_mem (h : Path cells p l) (he : e ∈ l) {last : Cell α} (hlast : cells[e]? = some last)
    (hend : last.next = none) {k : List ℕ} (hk : Path (link cells e c) c.next k) :
    Path (link cells e c) p (l ++ cells.length :: k) := by
  induction h with
  | nil => cases he
  | @cons i x l hi rest ih =>
    by_cases hie : i = e
    · subst hie
      rw [hi] at hlast
      obtain rfl := Option.some.inj hlast
      rw [hend] at rest
      cases rest
      exact .cons (link_getElem?_end hi) (.cons link_getElem?_new hk)
    · refine .cons ?_ (ih ((List.mem_cons.mp he).resolve_left (Ne.symm hie)))
      rw [link_getElem?_ne (List.getElem?_eq_some_iff.mp hi).1 hie]
      exact hi

/-- A chain with this end still ends only if the new cell leads to an end. -/
theorem Path.of_link (h : Path cells p l) (he : e ∈ l) {last : Cell α} (hlast : cells[e]? = some last)
    {l' : List ℕ} (h' : Path (link cells e c) p l') :
    ∃ k, Path (link cells e c) c.next k := by
  induction h generalizing l' with
  | nil => cases he
  | @cons i x l hi rest ih =>
    cases h' with
    | @cons _ y k hi' rest' =>
      by_cases hie : i = e
      · subst hie
        rw [link_getElem?_end hlast] at hi'
        obtain rfl := Option.some.inj hi'
        cases rest' with
        | cons hnew rest'' =>
          rw [link_getElem?_new] at hnew
          obtain rfl := Option.some.inj hnew
          exact ⟨_, rest''⟩
      · rw [link_getElem?_ne (List.getElem?_eq_some_iff.mp hi).1 hie, hi] at hi'
        obtain rfl := Option.some.inj hi'
        exact ih ((List.mem_cons.mp he).resolve_left (Ne.symm hie)) rest'

/-- The last place of a chain points nowhere. -/
theorem Path.next_getLast (h : Path cells p l) (he : l.getLast? = some e) :
    ∃ last, cells[e]? = some last ∧ last.next = none := by
  induction h with
  | nil => cases he
  | @cons i x l hi rest ih =>
    cases l with
    | nil =>
      obtain rfl := Option.some.inj he
      refine ⟨x, hi, ?_⟩
      cases hx : x.next with
      | none => rfl
      | some j =>
        rw [hx] at rest
        cases rest
    | cons j l =>
      rw [List.getLast?_cons_cons] at he
      exact ih he

/-- A new cell that nothing points to leaves the chains alone. -/
theorem Path.append (h : Path cells p l) : Path (cells ++ [c]) p l := by
  induction h with
  | nil => exact .nil
  | cons hi _ ih =>
    refine .cons ?_ ih
    rw [List.getElem?_append_left (List.getElem?_eq_some_iff.mp hi).1]
    exact hi

theorem cellValues_append_cell (hl : ∀ i ∈ l, i < cells.length) : cellValues (cells ++ [c]) l = cellValues cells l := by
  refine List.filterMap_congr fun i hi => ?_
  rw [List.getElem?_append_left (hl i hi)]

end Vpsim.Lib
