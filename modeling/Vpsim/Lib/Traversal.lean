import Mathlib.Logic.Relation
import Mathlib.Data.Fintype.Card
import Mathlib.Data.List.Nodup

/-!
# Depth-first traversals with one list of visited nodes

`visit` goes through the nodes reachable from a node, depth first, and hands the list of the
nodes visited so far from one branch to the next. It is given a bound on its depth; a depth for
every node that is not yet in the list is enough to visit all that can be reached.
-/

namespace Vpsim.Lib

variable {M : Type*}

/-- One edge of the graph. -/
def Edge (next : M → List M) (a b : M) : Prop := b ∈ next a

/-- `x` can be reached from `m`. -/
def Reaches (next : M → List M) : M → M → Prop := Relation.ReflTransGen (Edge next)

/-- Nodes that are numbered along their edges cannot form a cycle. -/
theorem not_reaches_of_rank {next : M → List M} (rank : M → ℕ) (h : ∀ a, ∀ b ∈ next a, rank a < rank b) {m s : M}
    (hs : s ∈ next m) : ¬ Reaches next s m := by
  have hmono {x : M} (hx : Reaches next s x) : rank s ≤ rank x := by
    induction hx with
    | refl => exact Nat.le_refl _
    | tail _ hedge ih => exact Nat.le_trans ih (Nat.le_of_lt (h _ _ hedge))
  intro hback
  exact Nat.not_lt.mpr (hmono hback) (h m s hs)

/-- What a traversal from the nodes in `start` adds to the list `called`: nodes that can be
reached, and with each of them all that it leads to. -/
structure Visits (next : M → List M) (start : M → Prop) (called visited : List M) : Prop where
  nodup : visited.Nodup
  old : called ⊆ visited
  start_mem : ∀ s, start s → s ∈ visited
  reached : ∀ x ∈ visited, x ∈ called ∨ ∃ s, start s ∧ Reaches next s x
  closed : ∀ x ∈ visited, x ∉ called → ∀ y ∈ next x, y ∈ visited

variable {next : M → List M}

theorem Visits.refl {called : List M} (h : called.Nodup) : Visits next (fun _ => False) called called :=
  ⟨h, fun _ h => h, fun _ h => h.elim, fun _ h => Or.inl h, fun _ h hn => absurd h hn⟩

theorem Visits.length_le {start : M → Prop} {called visited : List M} (h : Visits next start called visited)
    (hnodup : called.Nodup) : called.length ≤ visited.length :=
  (hnodup.subperm h.old).length_le

/-- Two traversals, one after the other, traverse from both starts. -/
theorem Visits.trans {start start' : M → Prop} {called visited visited' : List M}
    (h : Visits next start called visited) (h' : Visits next start' visited visited') :
    Visits next (fun s => start s ∨ start' s) called visited' where
  nodup := h'.nodup
  old := fun _ hx => h'.old (h.old hx)
  start_mem := fun s hs => hs.elim (fun hs => h'.old (h.start_mem s hs)) (h'.start_mem s)
  reached := by
    intro x hx
    rcases h'.reached x hx with hx | ⟨s, hs, hsx⟩
    · rcases h.reached x hx with hx | ⟨s, hs, hsx⟩
      · exact Or.inl hx
      · exact Or.inr ⟨s, Or.inl hs, hsx⟩
    · exact Or.inr ⟨s, Or.inr hs, hsx⟩
  closed := by
    intro x hx hcalled y hy
    by_cases hmid : x ∈ visited
    · exact h'.old (h.closed x hmid hcalled y hy)
    · exact h'.closed x hx hmid y hy

variable [DecidableEq M]

/-- The nodes visited so far, after the node `m` and all that it leads to. -/
def visit (next : M → List M) : ℕ → M → List M → List M
  | 0, _, called => called
  | n + 1, m, called =>
    (next m).foldl (fun called s => if s ∈ called then called else visit next n s called) (called ++ [m])

/-- A loop over nodes, each of which is visited unless it is in the list already. -/
theorem visits_foldl (next : M → List M) (n bound : ℕ)
    (hvisit : ∀ s called, called.Nodup → s ∉ called → bound ≤ called.length →
      Visits next (· = s) called (visit next n s called))
    (l : List M) {called : List M} (hnodup : called.Nodup) (hbound : bound ≤ called.length) :
    Visits next (· ∈ l) called
      (l.foldl (fun called s => if s ∈ called then called else visit next n s called) called) := by
  induction l generalizing called with
  | nil =>
    have hrefl : Visits next (fun _ => False) called called := Visits.refl hnodup
    exact ⟨hnodup, hrefl.old, fun _ h => absurd h List.not_mem_nil, fun x hx => Or.inl hx, hrefl.closed⟩
  | cons s l ih =>
    rw [List.foldl_cons]
    have hfirst : Visits next (· = s) called (if s ∈ called then called else visit next n s called) := by
      split_ifs with hs
      · exact ⟨hnodup, fun _ h => h, fun x hx => hx ▸ hs, fun x hx => Or.inl hx, fun x hx hn => absurd hx hn⟩
      · exact hvisit s called hnodup hs hbound
    have hrest := ih hfirst.nodup (hbound.trans (hfirst.length_le hnodup))
    have hboth := hfirst.trans hrest
    exact ⟨hboth.nodup, hboth.old, fun x hx => hboth.start_mem x (List.mem_cons.mp hx),
      fun x hx => (hboth.reached x hx).imp_right fun ⟨t, ht, htx⟩ => ⟨t, List.mem_cons.mpr ht, htx⟩,
      hboth.closed⟩

variable [Fintype M]

/-- With a depth for every node that has not been visited yet, a traversal visits what can be
reached. -/
theorem visits_visit {n : ℕ} {m : M} {called : List M} (hnodup : called.Nodup) (hm : m ∉ called)
    (hfuel : Fintype.card M ≤ n + called.length) :
    Visits next (· = m) called (visit next n m called) := by
  induction n generalizing m called with
  | zero =>
    have hlen := List.Nodup.length_le_card (List.nodup_cons.mpr ⟨hm, hnodup⟩)
    rw [List.length_cons] at hlen
    omega
  | succ n ih =>
    have hnodup' : (called ++ [m]).Nodup := List.nodup_append.mpr
      ⟨hnodup, List.nodup_singleton m, fun a ha b hb => by
        rw [List.mem_singleton.mp hb]
        exact fun h => hm (h ▸ ha)⟩
    have hloop := visits_foldl next n (called.length + 1)
      (fun s c hc hs hlen => ih hc hs (by omega)) (next m) hnodup' (by simp)
    refine ⟨hloop.nodup, fun x hx => hloop.old (List.mem_append_left _ hx), ?_, ?_, ?_⟩
    · rintro s rfl
      exact hloop.old (by simp)
    · intro x hx
      rcases hloop.reached x hx with hx | ⟨s, hs, hsx⟩
      · rcases List.mem_append.mp hx with hx | hx
        · exact Or.inl hx
        · exact Or.inr ⟨m, rfl, List.mem_singleton.mp hx ▸ Relation.ReflTransGen.refl⟩
      · exact Or.inr ⟨m, rfl, Relation.ReflTransGen.head hs hsx⟩
    · intro x hx hcalled y hy
      by_cases hxm : x = m
      · subst hxm
        exact hloop.start_mem y hy
      · exact hloop.closed x hx (by simp [hcalled, hxm]) y hy

/-- A traversal with an empty list visits exactly the nodes that can be reached. -/
theorem mem_visit_iff {m x : M} : x ∈ visit next (Fintype.card M) m [] ↔ Reaches next m x := by
  have h : Visits next (· = m) [] (visit next (Fintype.card M) m []) :=
    visits_visit List.nodup_nil List.not_mem_nil (Nat.le_add_right _ _)
  constructor
  · intro hx
    rcases h.reached x hx with hx | ⟨s, rfl, hsx⟩
    · cases hx
    · exact hsx
  · intro hx
    induction hx with
    | refl => exact h.start_mem m rfl
    | tail _ hedge ih => exact h.closed _ ih List.not_mem_nil _ hedge

end Vpsim.Lib
