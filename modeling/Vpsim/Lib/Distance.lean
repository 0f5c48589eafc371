import Mathlib.Order.Bounds.Basic
import Mathlib.Order.ConditionallyCompleteLattice.Basic
import Mathlib.Order.Lattice.Nat

/-!
# Distances in a directed graph

A walk follows edges; the distance of two vertices is the length of a shortest walk from one to the other. Where a
function from vertices to their next vertex lowers the distance to a target by one each time, following it is a
shortest walk.
-/

namespace Vpsim.Lib

variable {α : Type} {edge : α → α → Prop} {a b c : α} {m n : ℕ}

/-- A walk of so many edges. -/
inductive Walk (edge : α → α → Prop) : α → ℕ → α → Prop
  | stay (a : α) : Walk edge a 0 a
  | step {a b c : α} {n : ℕ} (hedge : edge a b) (hrest : Walk edge b n c) : Walk edge a (n + 1) c

theorem Walk.append (h : Walk edge a m b) (h' : Walk edge b n c) : Walk edge a (n + m) c := by
  induction h with
  | stay a => exact h'
  | step hedge _ ih => exact .step hedge (ih h')

theorem Walk.snoc (h : Walk edge a n b) (hedge : edge b c) : Walk edge a (n + 1) c := by
  rw [Nat.add_comm]
  exact h.append (.step hedge (.stay c))

/-- A walk of at least one edge has a last edge. -/
theorem Walk.last (h : Walk edge a (n + 1) c) : ∃ b, Walk edge a n b ∧ edge b c := by
  induction n generalizing a with
  | zero =>
    cases h with
    | step hedge hrest =>
      cases hrest
      exact ⟨a, .stay a, hedge⟩
  | succ n ih =>
    cases h with
    | step hedge hrest =>
      obtain ⟨b, hwalk, hlast⟩ := ih hrest
      exact ⟨b, .step hedge hwalk, hlast⟩

/-- What the edges keep, a walk keeps. -/
theorem Walk.mem {P : α → Prop} (hedge : ∀ a b, edge a b → P a → P b) (h : Walk edge a n b) (ha : P a) : P b := by
  induction h with
  | stay a => exact ha
  | step he _ ih => exact ih (hedge _ _ he ha)

/-- Some walk leads from one to the other. -/
def Reachable (edge : α → α → Prop) (a b : α) : Prop := ∃ n, Walk edge a n b

theorem Reachable.refl (a : α) : Reachable edge a a := ⟨0, .stay a⟩

theorem Reachable.snoc (h : Reachable edge a b) (hedge : edge b c) : Reachable edge a c := by
  obtain ⟨n, hwalk⟩ := h
  exact ⟨n + 1, hwalk.snoc hedge⟩

/-- The length of a shortest walk, and zero if there is none. -/
noncomputable def distance (edge : α → α → Prop) (a b : α) : ℕ := sInf {n | Walk edge a n b}

theorem distance_walk (h : Reachable edge a b) : Walk edge a (distance edge a b) b := Nat.sInf_mem h

theorem distance_le (h : Walk edge a n b) : distance edge a b ≤ n := Nat.sInf_le h

theorem isLeast_distance (h : Reachable edge a b) : IsLeast {n | Walk edge a n b} (distance edge a b) :=
  ⟨distance_walk h, fun _ hn => distance_le hn⟩

@[simp] theorem distance_self (a : α) : distance edge a a = 0 := Nat.le_zero.mp (distance_le (.stay a))

theorem eq_of_distance_eq_zero (h : Reachable edge a b) (hzero : distance edge a b = 0) : a = b := by
  have hwalk := distance_walk h
  rw [hzero] at hwalk
  cases hwalk
  rfl

theorem distance_triangle (h : Reachable edge a b) (h' : Reachable edge b c) :
    distance edge a c ≤ distance edge a b + distance edge b c := by
  rw [Nat.add_comm]
  exact distance_le ((distance_walk h).append (distance_walk h'))

/-- An edge leads at most one further away. -/
theorem distance_le_of_edge (h : Reachable edge a b) (hedge : edge b c) : distance edge a c ≤ distance edge a b + 1 :=
  distance_le ((distance_walk h).snoc hedge)

/-- The last edge of a shortest walk leads one further away. -/
theorem exists_nearer (h : Reachable edge a c) (hne : c ≠ a) :
    ∃ b, edge b c ∧ Reachable edge a b ∧ distance edge a b + 1 = distance edge a c := by
  obtain ⟨n, hn⟩ := Nat.exists_eq_succ_of_ne_zero fun hzero => hne (eq_of_distance_eq_zero h hzero).symm
  have hwalk := distance_walk h
  rw [hn] at hwalk
  obtain ⟨b, hfirst, hedge⟩ := hwalk.last
  have hle := distance_le hfirst
  have hge := distance_le_of_edge ⟨n, hfirst⟩ hedge
  exact ⟨b, hedge, ⟨n, hfirst⟩, by omega⟩

/-- A number that is zero at the target only and that edges lower by at most one, and some edge from each vertex by one,
is the distance to the target. -/
theorem distance_eq_of_potential {P : α → Prop} {target : α} {f : α → ℕ} (hkeep : ∀ a b, edge a b → P a → P b)
    (hzero : ∀ a, P a → (f a = 0 ↔ a = target)) (hlower : ∀ a b, P a → edge a b → f a ≤ f b + 1)
    (hnext : ∀ a, P a → f a ≠ 0 → ∃ b, edge a b ∧ f a = f b + 1) (ha : P a) :
    Reachable edge a target ∧ distance edge a target = f a := by
  have hwalk {n : ℕ} (hn : f a = n) : Walk edge a n target := by
    induction n generalizing a with
    | zero =>
      obtain rfl := (hzero a ha).mp hn
      exact .stay a
    | succ n ih =>
      obtain ⟨b, hedge, hb⟩ := hnext a ha (by omega)
      exact .step hedge (ih (hkeep a b hedge ha) (by omega))
  have hlong {b : α} {n : ℕ} (hn : Walk edge b n target) (hb : P b) : f b ≤ n := by
    generalize hc : target = c at hn
    induction hn with
    | stay c => exact Nat.le_of_eq ((hzero c hb).mpr hc.symm)
    | step hedge _ ih => exact (hlower _ _ hb hedge).trans (Nat.succ_le_succ (ih (hkeep _ _ hedge hb) hc))
  have hreach : Reachable edge a target := ⟨_, hwalk rfl⟩
  exact ⟨hreach, le_antisymm (distance_le (hwalk rfl)) (hlong (distance_walk hreach) ha)⟩

/-- The step to a vertex that is nearer to the target by one. -/
def Closer (edge : α → α → Prop) (target cur next : α) : Prop :=
  edge cur next ∧ distance edge next target + 1 = distance edge cur target

/-- The last edge of a shortest walk to a vertex on a shortest walk to a target is a step nearer to the target. -/
theorem closer_of_between {target : α} (hb : Reachable edge a b) (htarget : ∀ x, Reachable edge a x → Reachable edge x target)
    (hedge : edge b c) (hnear : distance edge a b + 1 = distance edge a c)
    (hbetween : distance edge a c + distance edge c target = distance edge a target) :
    Closer edge target b c ∧ distance edge a b + distance edge b target = distance edge a target := by
  have hc := htarget c (hb.snoc hedge)
  have hshort : distance edge b target ≤ distance edge c target + 1 := distance_le (.step hedge (distance_walk hc))
  have htriangle := distance_triangle hb (htarget b hb)
  exact ⟨⟨hedge, by omega⟩, by omega⟩

end Vpsim.Lib
