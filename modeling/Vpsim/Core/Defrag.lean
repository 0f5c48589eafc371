import Vpsim.Core.Fragmentation

/-!
# The canonical form of a container

`defrag` scans the vector with two iterators, replaces the first two neighbours that it can
merge by one entry, and then calls itself on the vector as it is now. `Defrags` describes those
nested calls, with the positions of the iterators, and `defrag_canonical` collects what the
result is: it ends, changes no value, and is the only way to store the map without neighbours
that continue each other.
-/

namespace Vpsim.Core.ParamContainer

open Vpsim.Lib

variable {V : Type}

/-! ## The vector under its own iterators -/

/-- The body of the `if`: the entries at both iterators are erased, the second one first, and the
joined range is put where the first one was. -/
def mergeAt (pc : ParamContainer V) (it1 : ℕ) (newAs : AddrSpace) (p1s : V) : ParamContainer V :=
  ((pc.eraseIdx (it1 + 1)).eraseIdx it1).insertIdx it1 (newAs, p1s)

/-- The loop of `defrag` from the position `it1`: the vector that the recursive call gets, or none
when the loop ends. -/
def defragLoop [DecidableEq V] (pc : ParamContainer V) (it1 : ℕ) : Option (ParamContainer V) :=
  if h : it1 + 1 < pc.length then
    let e1 := pc.get ⟨it1, Nat.lt_of_succ_lt h⟩
    let e2 := pc.get ⟨it1 + 1, h⟩
    if (e1.1.endAddress + 1) % AddrSpace.addrCount = e2.1.baseAddress ∧ e1.2 = e2.2 then
      some (mergeAt pc it1 ⟨e1.1.baseAddress, e2.1.endAddress⟩ e1.2)
    else defragLoop pc (it1 + 1)
  else none
termination_by pc.length - it1

/-- `Defrags pc n result`: the call on `pc` calls itself `n` times and leaves `result`. -/
inductive Defrags [DecidableEq V] : ParamContainer V → ℕ → ParamContainer V → Prop
  | done {pc} : (1 < pc.length → defragLoop pc 0 = none) → Defrags pc 0 pc
  | again {pc pc' n result} : 1 < pc.length → defragLoop pc 0 = some pc' → Defrags pc' n result →
      Defrags pc (n + 1) result

theorem mergeAt_append (l rest : ParamContainer V) (p q : AddrSpace × V) (newAs : AddrSpace) (p1s : V) :
    mergeAt (l ++ p :: q :: rest) l.length newAs p1s = l ++ (newAs, p1s) :: rest := by
  unfold mergeAt
  rw [List.eraseIdx_append_of_length_le (by omega), Nat.add_sub_cancel_left,
    List.eraseIdx_append_of_length_le (Nat.le_refl _), Nat.sub_self]
  simp only [List.eraseIdx_cons_succ, List.eraseIdx_cons_zero]
  induction l with
  | nil => rfl
  | cons head l ih => rw [List.cons_append, List.length_cons, List.insertIdx_succ_cons, ih, List.cons_append]

variable [DecidableEq V]

/-- The loop with iterators finds and merges what the pass over the list does. -/
theorem defragLoop_append (l pc : ParamContainer V) :
    defragLoop (l ++ pc) l.length = (defragOnce pc).map (l ++ ·) := by
  induction pc generalizing l with
  | nil =>
    rw [defragLoop, dif_neg (by simp)]
    rfl
  | cons p pc ih =>
    cases pc with
    | nil =>
      rw [defragLoop, dif_neg (by simp)]
      rfl
    | cons q rest =>
      have hp : ∀ h, (l ++ p :: q :: rest).get ⟨l.length, h⟩ = p := fun h => by simp
      have hq : ∀ h, (l ++ p :: q :: rest).get ⟨l.length + 1, h⟩ = q := fun h => by simp
      rw [defragLoop, dif_pos (by simp)]
      simp only [hp, hq]
      rw [defragOnce]
      by_cases hmerge : (p.1.endAddress + 1) % AddrSpace.addrCount = q.1.baseAddress ∧ p.2 = q.2
      · rw [if_pos hmerge, if_pos hmerge, mergeAt_append]
        rfl
      · rw [if_neg hmerge, if_neg hmerge]
        have hnext := ih (l ++ [p])
        rw [List.append_assoc, List.singleton_append, List.length_append, List.length_singleton] at hnext
        rw [hnext, Option.map_map]
        congr 1
        funext tail
        simp

theorem defragLoop_zero (pc : ParamContainer V) : defragLoop pc 0 = defragOnce pc := by
  have h := defragLoop_append [] pc
  rw [List.nil_append, List.length_nil] at h
  rw [h]
  cases defragOnce pc <;> rfl

theorem defragOnce_some_length {pc pc' : ParamContainer V} (h : defragOnce pc = some pc') :
    1 < pc.length := by
  obtain ⟨l, rest, as1, as2, v, rfl, -, -⟩ := defragOnce_cases h
  simp only [List.length_append, List.length_cons]
  omega

/-- The nested calls end after fewer of them than there are entries, and leave `defrag pc`. -/
theorem defrags_defrag (pc : ParamContainer V) : ∃ n ≤ pc.length - 1, Defrags pc n (defrag pc) := by
  fun_induction defrag pc with
  | case1 pc hnone => exact ⟨0, Nat.zero_le _, .done fun _ => (defragLoop_zero pc).trans hnone⟩
  | case2 pc pc' hsome ih =>
    obtain ⟨n, hn, hrun⟩ := ih
    have hlen := defragOnce_length hsome
    have hone := defragOnce_some_length hsome
    exact ⟨n + 1, by omega, .again hone ((defragLoop_zero pc).trans hsome) hrun⟩

/-- The calls cannot go any other way. -/
theorem Defrags.eq_defrag {pc result : ParamContainer V} {n : ℕ} (h : Defrags pc n result) :
    result = defrag pc := by
  induction h with
  | @done pc hnone =>
    have hcompact : defragOnce pc = none := by
      cases hsome : defragOnce pc with
      | none => rfl
      | some pc' =>
        have := hnone (defragOnce_some_length hsome)
        rw [defragLoop_zero, hsome] at this
        cases this
    rw [defrag.eq_def]
    split
    · rfl
    · next hsome =>
      rw [hcompact] at hsome
      cases hsome
  | @again pc pc' n result _ hloop _ ih =>
    rw [defragLoop_zero] at hloop
    rw [ih]
    conv_rhs => rw [defrag.eq_def]
    split
    · next hnone =>
      rw [hloop] at hnone
      cases hnone
    · next pc'' hsome =>
      rw [hloop] at hsome
      rw [Option.some.inj hsome]

/-! ## Canonical -/

/-- What `defrag` makes of a container. -/
structure Canonical (pc : ParamContainer V) : Prop where
  /-- It ends, after fewer recursive calls than there are entries. -/
  terminates : ∃ n ≤ pc.length - 1, Defrags pc n (defrag pc)
  only : ∀ n result, Defrags pc n result → result = defrag pc
  sound : Sound (defrag pc)
  values : ∀ a, valueAt (defrag pc) a = valueAt pc a
  /-- Entries that touch have different values. -/
  merged : TouchingDiffer (defrag pc)
  idempotent : defrag (defrag pc) = defrag pc
  /-- Containers with the same value at every address become the same vector. -/
  unique : ∀ pc', Sound pc' → (∀ a < AddrSpace.addrCount, valueAt pc' a = valueAt pc a) →
    defrag pc' = defrag pc

/-- Sound containers with the same values become the same vector. -/
theorem defrag_eq_of_valueAt {pc pc' : ParamContainer V} (hs : Sound pc) (hs' : Sound pc')
    (heq : ∀ a < AddrSpace.addrCount, valueAt pc' a = valueAt pc a) : defrag pc' = defrag pc := by
  refine Compact.eq_of_values (compact_defrag pc') (compact_defrag pc) (sound_defrag hs') (sound_defrag hs)
    fun a ha => ?_
  rw [valueAt_defrag hs', valueAt_defrag hs]
  exact heq a ha

theorem defrag_idempotent (pc : ParamContainer V) : defrag (defrag pc) = defrag pc := by
  have hrun : Defrags (defrag pc) 0 (defrag pc) :=
    .done fun _ => (defragLoop_zero _).trans (compact_defrag pc)
  exact hrun.eq_defrag.symm

/-- Defragmentation is canonical: it ends with the one vector for the map that the container
stands for. -/
theorem defrag_canonical {pc : ParamContainer V} (hs : Sound pc) : Canonical pc where
  terminates := defrags_defrag pc
  only _ _ h := h.eq_defrag
  sound := sound_defrag hs
  values := valueAt_defrag hs
  merged := (compact_iff_touchingDiffer (sound_defrag hs)).mp (compact_defrag pc)
  idempotent := defrag_idempotent pc
  unique _ hs' heq := defrag_eq_of_valueAt hs hs' heq

/-- The last entry ends at the last address, where the end plus one is the start of the first. -/
theorem defrag_canonical_wholeRange :
    Canonical [((⟨0, 9⟩ : AddrSpace), (7 : ℕ)), (⟨10, 19⟩, 7), (⟨20, 2 ^ 64 - 1⟩, 7)] :=
  defrag_canonical <| Sound.of_ordered (by decide) (by decide)

end Vpsim.Core.ParamContainer
