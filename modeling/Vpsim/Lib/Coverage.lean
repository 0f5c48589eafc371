import Mathlib.Data.List.Perm.Basic
import Mathlib.Data.List.Flatten

/-!
# Lists of regions with values, read pointwise

A list of pairs `(region, value)` denotes at each point the list of the values whose region
covers it. Two regions of the list overlap exactly when some point has more than one value,
so disjointness, permutations and splittings of entries are all read off `valuesAt`.
-/

namespace Vpsim.Lib

variable {K A V : Type*} [Membership A K] [∀ (k : K) (a : A), Decidable (a ∈ k)]

/-- The values of the entries that cover `a`, in list order. -/
def valuesAt (l : List (K × V)) (a : A) : List V :=
  l.filterMap fun p => if a ∈ p.1 then some p.2 else none

/-- The value at `a`: that of the first entry that covers it. -/
def valueAt (l : List (K × V)) (a : A) : Option V := (valuesAt l a).head?

@[simp] theorem valuesAt_nil (a : A) : valuesAt ([] : List (K × V)) a = [] := rfl

theorem valuesAt_cons (p : K × V) (l : List (K × V)) (a : A) :
    valuesAt (p :: l) a = (if a ∈ p.1 then [p.2] else []) ++ valuesAt l a := by
  by_cases h : a ∈ p.1 <;> simp [valuesAt, h]

@[simp] theorem valuesAt_cons_of_mem {p : K × V} (l : List (K × V)) {a : A} (h : a ∈ p.1) :
    valuesAt (p :: l) a = p.2 :: valuesAt l a := by
  simp [valuesAt_cons, h]

@[simp] theorem valuesAt_cons_of_notMem {p : K × V} (l : List (K × V)) {a : A} (h : a ∉ p.1) :
    valuesAt (p :: l) a = valuesAt l a := by
  simp [valuesAt_cons, h]

@[simp] theorem valuesAt_append (l l' : List (K × V)) (a : A) :
    valuesAt (l ++ l') a = valuesAt l a ++ valuesAt l' a := by
  simp [valuesAt]

theorem valuesAt_flatMap {B : Type*} (l : List B) (f : B → List (K × V)) (a : A) :
    valuesAt (l.flatMap f) a = l.flatMap fun b => valuesAt (f b) a := by
  induction l with
  | nil => rfl
  | cons b l ih => simp [ih]

/-- Reordering the entries reorders the values of each point. -/
theorem valuesAt_perm {l l' : List (K × V)} (h : l.Perm l') (a : A) :
    (valuesAt l a).Perm (valuesAt l' a) := h.filterMap _

theorem mem_valuesAt {l : List (K × V)} {a : A} {v : V} :
    v ∈ valuesAt l a ↔ ∃ k, (k, v) ∈ l ∧ a ∈ k := by
  simp only [valuesAt, List.mem_filterMap, Option.ite_none_right_eq_some, Option.some.injEq]
  constructor
  · rintro ⟨⟨k, w⟩, hmem, hk, rfl⟩
    exact ⟨k, hmem, hk⟩
  · rintro ⟨k, hmem, hk⟩
    exact ⟨(k, v), hmem, hk, rfl⟩

/-- No point is covered twice. -/
def Apart (l : List (K × V)) : Prop := ∀ a : A, (valuesAt l a).length ≤ 1

/-- Two entries of the list never cover the same point exactly when no point has two values. -/
theorem apart_iff_pairwise (l : List (K × V)) :
    Apart l ↔ l.Pairwise fun p q => ∀ a : A, a ∈ p.1 → a ∉ q.1 := by
  induction l with
  | nil => simp [Apart]
  | cons p l ih =>
    rw [List.pairwise_cons, ← ih]
    constructor
    · intro h
      refine ⟨fun q hq a hp hqa => ?_, fun a => ?_⟩
      · have hlen := h a
        rw [valuesAt_cons_of_mem l hp, List.length_cons] at hlen
        have hmem : q.2 ∈ valuesAt l a := mem_valuesAt.mpr ⟨q.1, hq, hqa⟩
        have hpos := List.length_pos_of_mem hmem
        omega
      · have hlen := h a
        rw [valuesAt_cons, List.length_append] at hlen
        omega
    · rintro ⟨hp, hl⟩ a
      by_cases ha : a ∈ p.1
      · have hnil : valuesAt l a = [] := by
          rw [List.eq_nil_iff_forall_not_mem]
          intro v hv
          obtain ⟨k, hk, hak⟩ := mem_valuesAt.mp hv
          exact hp (k, v) hk a ha hak
        rw [valuesAt_cons_of_mem l ha, hnil]
        exact Nat.le_refl _
      · rw [valuesAt_cons_of_notMem l ha]
        exact hl a

theorem Apart.perm {l l' : List (K × V)} (hl : Apart l) (h : l.Perm l') :
    Apart l' := fun a => (valuesAt_perm h a).length_eq ▸ hl a

/-- Where no point is covered twice, the value at a point lists all its values. -/
theorem Apart.valuesAt_eq {l : List (K × V)} (hl : Apart l) (a : A) :
    valuesAt l a = (valueAt l a).toList := by
  have hlen := hl a
  unfold valueAt
  match h : valuesAt l a with
  | [] => rfl
  | [v] => rfl
  | v :: w :: rest => rw [h] at hlen; simp at hlen

/-- A point whose values are listed by an optional value has that value. -/
theorem valueAt_of_valuesAt {l : List (K × V)} {a : A} {o : Option V}
    (h : valuesAt l a = o.toList) : valueAt l a = o := by
  rw [valueAt, h]
  cases o <;> rfl

theorem Apart.valueAt_perm {l l' : List (K × V)} (hl : Apart l) (h : l.Perm l') (a : A) :
    valueAt l' a = valueAt l a := by
  have hperm := valuesAt_perm h a
  rw [hl.valuesAt_eq] at hperm
  apply valueAt_of_valuesAt
  cases hv : valueAt l a with
  | none => rw [hv] at hperm; simpa using hperm.symm.eq_nil
  | some v => rw [hv] at hperm; exact (List.singleton_perm.mp hperm).symm

theorem Apart.valueAt_eq_some {l : List (K × V)} (hl : Apart l) {a : A} {v : V} :
    valueAt l a = some v ↔ ∃ k, (k, v) ∈ l ∧ a ∈ k := by
  rw [← mem_valuesAt, hl.valuesAt_eq]
  cases valueAt l a <;> simp [eq_comm]

theorem valueAt_eq_none {l : List (K × V)} {a : A} :
    valueAt l a = none ↔ ∀ p ∈ l, a ∉ p.1 := by
  rw [valueAt, List.head?_eq_none_iff, List.eq_nil_iff_forall_not_mem]
  constructor
  · intro h p hp ha
    exact h p.2 (mem_valuesAt.mpr ⟨p.1, hp, ha⟩)
  · intro h v hv
    obtain ⟨k, hk, ha⟩ := mem_valuesAt.mp hv
    exact h (k, v) hk ha

end Vpsim.Lib
