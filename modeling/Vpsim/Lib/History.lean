import Mathlib.Data.List.Induction

/-!
# Conditions on a history

`AtEach P l` says that every element of a list has `P` of the elements before it. A state that each element
changes can be followed by an invariant of the elements so far, as long as the elements have a condition.
-/

namespace Vpsim.Lib

variable {ι σ : Type} {P Q : List ι → ι → Prop}

/-- Every element of a list has `P` of the elements before it. -/
def AtEach (P : List ι → ι → Prop) (l : List ι) : Prop := ∀ done x rest, l = done ++ x :: rest → P done x

/-- The empty history meets every condition. -/
theorem atEach_nil : AtEach P [] := by
  intro done x rest heq
  cases (List.append_eq_nil_iff.1 heq.symm).2

/-- The first elements of a history have the condition like all of it. -/
theorem AtEach.left {l l' : List ι} (h : AtEach P (l ++ l')) : AtEach P l := by
  intro done x rest heq
  apply h done x (rest ++ l')
  rw [heq, List.append_assoc]
  rfl

/-- A history meets a condition when its first element does and the rest meets it behind that element. -/
theorem atEach_cons {x : ι} {l : List ι} : AtEach P (x :: l) ↔ P [] x ∧ AtEach (fun done => P (x :: done)) l := by
  constructor
  · intro h
    refine ⟨h [] x l rfl, fun done y rest heq => ?_⟩
    exact h (x :: done) y rest (congrArg (x :: ·) heq)
  · intro ⟨hx, h⟩ done y rest heq
    cases done with
    | nil =>
      cases heq
      exact hx
    | cons z done =>
      obtain ⟨rfl, htail⟩ := List.cons.inj heq
      exact h done y rest htail

/-- A history with one more element meets a condition when both do. -/
theorem atEach_concat {l : List ι} {x : ι} : AtEach P (l ++ [x]) ↔ AtEach P l ∧ P l x := by
  constructor
  · intro h
    exact ⟨h.left, h l x [] rfl⟩
  · intro ⟨h, hx⟩ done y rest heq
    induction rest using List.reverseRecOn with
    | nil =>
      obtain ⟨rfl, hy⟩ := List.append_inj' heq rfl
      cases hy
      exact hx
    | append_singleton rest z =>
      rw [← List.cons_append, ← List.append_assoc] at heq
      exact h done y rest (List.append_inj' heq rfl).1

variable {step : σ → ι → σ} {s : σ} {Inv : List ι → σ → Prop}

/-- An invariant that every element with the condition keeps holds after a history that meets it. -/
theorem AtEach.inv (hinit : Inv [] s) (hstep : ∀ done x t, Inv done t → P done x → Inv (done ++ [x]) (step t x))
    {l : List ι} (h : AtEach P l) : Inv l (l.foldl step s) := by
  induction l using List.reverseRecOn with
  | nil => exact hinit
  | append_singleton l x ih =>
    obtain ⟨hl, hx⟩ := atEach_concat.1 h
    rw [List.foldl_append]
    exact hstep l x _ (ih hl) hx

/-- Under an invariant that the condition keeps, a property of the state at each element is the condition. -/
theorem atEach_iff (Inv : List ι → σ → Prop) {D : σ → ι → Prop} (hinit : Inv [] s)
    (hstep : ∀ done x t, Inv done t → P done x → Inv (done ++ [x]) (step t x))
    (hiff : ∀ done x t, Inv done t → (D t x ↔ P done x)) (l : List ι) :
    AtEach (fun done x => D (done.foldl step s) x) l ↔ AtEach P l := by
  induction l using List.reverseRecOn with
  | nil => exact iff_of_true atEach_nil atEach_nil
  | append_singleton l x ih =>
    rw [atEach_concat, atEach_concat, ih]
    apply and_congr_right
    intro hl
    exact hiff l x _ (hl.inv hinit hstep)

/-- A property holds after every beginning of a history exactly when it holds at first and every element has the
condition under which it goes on to hold. -/
theorem forall_prefix_iff (Inv : List ι → σ → Prop) {C : σ → ι → Prop}
    (hstep : ∀ done x t, Inv done t → (Inv (done ++ [x]) (step t x) ↔ C t x)) (l : List ι) :
    (∀ done, done <+: l → Inv done (done.foldl step s)) ↔
      Inv [] s ∧ AtEach (fun done x => C (done.foldl step s) x) l := by
  induction l using List.reverseRecOn with
  | nil =>
    rw [and_iff_left atEach_nil]
    constructor
    · intro h
      exact h [] List.prefix_rfl
    · intro h done hdone
      rw [List.prefix_nil.1 hdone]
      exact h
  | append_singleton l x ih =>
    have hlast : (l ++ [x]).foldl step s = step (l.foldl step s) x := by
      rw [List.foldl_append]
      rfl
    rw [atEach_concat, ← and_assoc, ← ih]
    constructor
    · intro h
      have hl := h l (List.prefix_append l [x])
      have hx := h (l ++ [x]) List.prefix_rfl
      rw [hlast] at hx
      exact ⟨fun done hdone => h done (hdone.trans (List.prefix_append l [x])), (hstep l x _ hl).1 hx⟩
    · intro ⟨hl, hx⟩ done hdone
      obtain heq | hdone := List.prefix_concat_iff.1 hdone
      · rw [heq, hlast]
        exact (hstep l x _ (hl l List.prefix_rfl)).2 hx
      · exact hl done hdone

end Vpsim.Lib
