import Mathlib.Data.List.Basic
import Mathlib.Data.Nat.Notation

/-!
# Round-robin arbitration

Ports `0 .. n - 1` are searched in cyclic order from a start. The place of a port is the number of the round in which
the search looks at it. The request found is the one with the least place; once the search starts behind the port that
was found, every other request has moved up by more than that place. So a request waits for no more grants than its
place.
-/

namespace Vpsim.Lib

variable {n start i j : ℕ}

/-- The round in which a search from `start` looks at port `i`. -/
def place (n start i : ℕ) : ℕ := (i + (n - start % n)) % n

theorem place_lt (hn : 0 < n) : place n start i < n := Nat.mod_lt _ hn

/-- The search looks at the port in that round. -/
theorem place_add (hi : i < n) : (place n start i + start) % n = i := by
  have hn : 0 < n := Nat.zero_lt_of_lt hi
  have hs : start % n < n := Nat.mod_lt _ hn
  unfold place
  rw [Nat.add_mod, Nat.mod_mod, ← Nat.add_mod]
  have hsplit : i + (n - start % n) + start = i + n * (start / n + 1) := by
    have := Nat.div_add_mod start n
    rw [Nat.mul_add, Nat.mul_one]
    omega
  rw [hsplit, Nat.add_mul_mod_self_left, Nat.mod_eq_of_lt hi]

/-- It looks at the port in no other round. -/
theorem place_eq {k : ℕ} (hk : k < n) : place n start ((k + start) % n) = k := by
  have hn : 0 < n := Nat.zero_lt_of_lt hk
  have hs : start % n < n := Nat.mod_lt _ hn
  unfold place
  rw [Nat.mod_add_mod]
  have hsplit : k + start + (n - start % n) = k + n * (start / n + 1) := by
    have := Nat.div_add_mod start n
    rw [Nat.mul_add, Nat.mul_one]
    omega
  rw [hsplit, Nat.add_mul_mod_self_left, Nat.mod_eq_of_lt hk]

theorem place_inj (hi : i < n) (hj : j < n) (h : place n start i = place n start j) : i = j := by
  calc i = (place n start i + start) % n := (place_add hi).symm
    _ = (place n start j + start) % n := by rw [h]
    _ = j := place_add hj

section Search

variable {α : Type} {request : ℕ → Option α} {a : α}

/-- The search in cyclic order. -/
def search (n start : ℕ) (request : ℕ → Option α) : Option α :=
  (List.range n).findSome? fun k => request ((k + start) % n)

/-- It finds a request of least place. -/
theorem search_eq_some (h : search n start request = some a) :
    ∃ j < n, request j = some a ∧ ∀ i < n, (request i).isSome → place n start j ≤ place n start i := by
  unfold search at h
  obtain ⟨before, k, after, hsplit, hfound, hbefore⟩ := List.findSome?_eq_some_iff.mp h
  have hk : k < n := List.mem_range.mp (hsplit ▸ List.mem_append_right _ List.mem_cons_self)
  have hn : 0 < n := Nat.zero_lt_of_lt hk
  have hplace : before.length = k := by
    have hget : (List.range n)[before.length]? = some k := by
      rw [hsplit, List.getElem?_append_right (Nat.le_refl _), Nat.sub_self]
      rfl
    rw [List.getElem?_range (by
      rw [← List.length_range (n := n), hsplit, List.length_append, List.length_cons]
      omega)] at hget
    exact Option.some.inj hget
  refine ⟨(k + start) % n, Nat.mod_lt _ hn, hfound, fun i hi hrequest => ?_⟩
  rw [place_eq hk]
  by_contra hlt
  -- a round before the one that found something
  have hmem : place n start i ∈ before := by
    have hget : (List.range n)[place n start i]? = some (place n start i) :=
      List.getElem?_range (place_lt hn)
    rw [hsplit, List.getElem?_append_left (by omega)] at hget
    exact List.mem_of_getElem? hget
  have hnone := hbefore _ hmem
  rw [place_add hi] at hnone
  rw [hnone] at hrequest
  cases hrequest

/-- It finds a request if there is one. -/
theorem search_isSome (hi : i < n) (h : (request i).isSome) : (search n start request).isSome := by
  unfold search
  rw [List.findSome?_isSome_iff]
  refine ⟨place n start i, List.mem_range.mpr (place_lt (Nat.zero_lt_of_lt hi)), ?_⟩
  rw [place_add hi]
  exact h

end Search

/-- Behind the port found, another port comes earlier by more than the place of the port found. -/
theorem place_succ (hi : i < n) (hj : j < n) (hne : i ≠ j) (hle : place n start j ≤ place n start i) :
    place n (j + 1) i + place n start j + 1 = place n start i := by
  have hlt : place n start j < place n start i :=
    Nat.lt_of_le_of_ne hle fun heq => hne (place_inj hi hj heq.symm)
  have hn : 0 < n := Nat.zero_lt_of_lt hi
  have hi' : place n start i < n := place_lt hn
  have hk : place n start i - place n start j - 1 < n := by omega
  have hround : (place n start i - place n start j - 1 + (j + 1)) % n = i :=
    calc (place n start i - place n start j - 1 + (j + 1)) % n
        = (place n start i - place n start j + j) % n := by congr 1; omega
      _ = (place n start i - place n start j + (place n start j + start) % n) % n := by rw [place_add hj]
      _ = (place n start i - place n start j + (place n start j + start)) % n := Nat.add_mod_mod _ _ _
      _ = (place n start i + start) % n := by congr 1; omega
      _ = i := place_add hi
  have heq := @place_eq n (j + 1) _ hk
  rw [hround] at heq
  omega

end Vpsim.Lib
