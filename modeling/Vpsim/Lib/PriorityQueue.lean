import Mathlib.Data.Multiset.AddSub
import Mathlib.Data.List.Sort
import Mathlib.Data.Nat.Notation

/-!
# Priority queues

A priority queue gives an entry with the least key. Which of several such entries is at the top is left open, and may
depend on all that was done with the queue before.
-/

namespace Vpsim.Lib

/-- A priority queue with the least key at the top. -/
structure PriorityQueue (α : Type) (key : α → ℕ) where
  Carrier : Type
  contents : Carrier → Multiset α
  empty : Carrier
  push : α → Carrier → Carrier
  top : Carrier → Option α
  pop : Carrier → Carrier
  contents_empty : contents empty = 0
  contents_push : ∀ a q, contents (push a q) = a ::ₘ contents q
  contents_of_none : ∀ q, top q = none → contents q = 0
  contents_of_some : ∀ q a, top q = some a → contents q = a ::ₘ contents (pop q)
  top_le : ∀ q a, top q = some a → ∀ b ∈ contents q, key a ≤ key b

namespace PriorityQueue

variable {α : Type} {key : α → ℕ}

/-- Entry before the first one with a greater key. -/
def insertByKey (key : α → ℕ) (a : α) (l : List α) : List α :=
  l.takeWhile (fun b => key b ≤ key a) ++ a :: l.dropWhile (fun b => key b ≤ key a)

theorem insertByKey_perm (a : α) (l : List α) : (insertByKey key a l).Perm (a :: l) := by
  unfold insertByKey
  refine List.perm_middle.trans (List.Perm.cons a ?_)
  rw [List.takeWhile_append_dropWhile]

theorem insertByKey_pairwise (a : α) {l : List α} (h : l.Pairwise fun b c => key b ≤ key c) :
    (insertByKey key a l).Pairwise fun b c => key b ≤ key c := by
  unfold insertByKey
  induction l with
  | nil => exact List.pairwise_singleton _ a
  | cons b l ih =>
    obtain ⟨hb, hl⟩ := List.pairwise_cons.mp h
    by_cases hle : key b ≤ key a
    · rw [List.takeWhile_cons_of_pos (by simpa using hle), List.dropWhile_cons_of_pos (by simpa using hle)]
      refine List.pairwise_cons.mpr ⟨fun c hc => ?_, ih hl⟩
      rcases List.mem_cons.mp ((insertByKey_perm a l).mem_iff.mp hc) with rfl | hc
      · exact hle
      · exact hb c hc
    · rw [List.takeWhile_cons_of_neg (by simpa using hle), List.dropWhile_cons_of_neg (by simpa using hle)]
      refine List.pairwise_cons.mpr ⟨fun c hc => ?_, h⟩
      have hfirst : key b ≤ key c := by
        rcases List.mem_cons.mp hc with rfl | hc
        · exact Nat.le_refl _
        · exact hb c hc
      omega

theorem key_le_of_head? {l : List α} (h : l.Pairwise fun b c => key b ≤ key c) {a b : α} (ha : l.head? = some a)
    (hb : b ∈ l) : key a ≤ key b := by
  rw [List.eq_cons_of_mem_head? ha] at h hb
  rcases List.mem_cons.mp hb with rfl | hb
  · exact Nat.le_refl _
  · exact (List.pairwise_cons.mp h).1 b hb

/-- The queue that is a sorted list. -/
def sorted (key : α → ℕ) : PriorityQueue α key where
  Carrier := { l : List α // l.Pairwise fun b c => key b ≤ key c }
  contents l := l.1
  empty := ⟨[], List.Pairwise.nil⟩
  push a l := ⟨insertByKey key a l.1, insertByKey_pairwise a l.2⟩
  top l := l.1.head?
  pop l := ⟨l.1.tail, l.2.tail⟩
  contents_empty := rfl
  contents_push a l := Multiset.coe_eq_coe.mpr (insertByKey_perm a l.1)
  contents_of_none _ h := congrArg _ (List.head?_eq_none_iff.mp h)
  contents_of_some _ _ h := congrArg _ (List.eq_cons_of_mem_head? h)
  top_le l _ h _ hb := key_le_of_head? l.2 h hb

end PriorityQueue

end Vpsim.Lib
