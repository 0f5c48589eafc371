import Mathlib.Data.Nat.Notation
import Mathlib.Logic.Basic

/-!
# Weakest preconditions of stateful programs that may stop

Programs in `EStateM` keep the state in which they stop. `wp x Q E s` says what holds when
`x` runs from `s`: `Q` of the result and the final state if it returns, `E` of the error and
the state in which it stops otherwise.
-/

namespace Vpsim.Lib

variable {ε σ α β : Type}

/-- What holds at the end of a run of `x` from `s`. -/
def wp (x : EStateM ε σ α) (Q : α → σ → Prop) (E : ε → σ → Prop) (s : σ) : Prop :=
  match x s with
  | .ok a s' => Q a s'
  | .error e s' => E e s'

variable {Q : α → σ → Prop} {E : ε → σ → Prop} {s : σ}

/-- A returned value leaves the state alone. -/
@[simp] theorem wp_pure (a : α) : wp (pure a) Q E s ↔ Q a s := Iff.rfl

/-- Stopping with an error meets what is asked of errors. -/
@[simp] theorem wp_throw (e : ε) : wp (throw e) Q E s ↔ E e s := Iff.rfl

/-- Reading the state returns it and leaves it. -/
@[simp] theorem wp_get {Q : σ → σ → Prop} : wp get Q E s ↔ Q s s := Iff.rfl

/-- Changing the state ends in the changed state. -/
@[simp] theorem wp_modify {Q : PUnit → σ → Prop} (f : σ → σ) :
    wp (modify f) Q E s ↔ Q ⟨⟩ (f s) := Iff.rfl

/-- A sequence runs its second part from the end of the first. -/
theorem wp_bind {Q : β → σ → Prop} (x : EStateM ε σ α) (f : α → EStateM ε σ β) :
    wp (x >>= f) Q E s ↔ wp x (fun a => wp (f a) Q E) E s := by
  change wp (EStateM.bind x f) Q E s ↔ _
  unfold wp EStateM.bind
  cases x s <;> rfl

/-- A sequence is verified from its start. -/
theorem wp.step {Q : β → σ → Prop} {x : EStateM ε σ α} {f : α → EStateM ε σ β}
    (h : wp x (fun a => wp (f a) Q E) E s) : wp (x >>= f) Q E s :=
  (wp_bind x f).2 h

/-- A branch whose condition holds runs its first side. -/
theorem wp.ite_pos {c : Prop} [Decidable c] {x y : EStateM ε σ α} (hc : c) (h : wp x Q E s) :
    wp (if c then x else y) Q E s := by
  rw [if_pos hc]
  exact h

/-- A branch whose condition does not hold runs its second side. -/
theorem wp.ite_neg {c : Prop} [Decidable c] {x y : EStateM ε σ α} (hc : ¬ c) (h : wp y Q E s) :
    wp (if c then x else y) Q E s := by
  rw [if_neg hc]
  exact h

/-- What holds at the end may be weakened. -/
theorem wp.mono {Q' : α → σ → Prop} {x : EStateM ε σ α} (h : wp x Q E s)
    (hQ : ∀ a s', Q a s' → Q' a s') : wp x Q' E s := by
  unfold wp at h ⊢
  split at h
  · exact hQ _ _ h
  · exact h

/-- What holds at either end may be weakened. -/
theorem wp.imp {Q' : α → σ → Prop} {E' : ε → σ → Prop} {x : EStateM ε σ α} (h : wp x Q E s)
    (hQ : ∀ a s', Q a s' → Q' a s') (hE : ∀ e s', E e s' → E' e s') : wp x Q' E' s := by
  unfold wp at h ⊢
  split at h
  · exact hQ _ _ h
  · exact hE _ _ h

/-- Two specifications of one program hold together. -/
theorem wp.and {Q' : α → σ → Prop} {x : EStateM ε σ α} (h : wp x Q E s) (h' : wp x Q' E s) :
    wp x (fun a s' => Q a s' ∧ Q' a s') E s := by
  unfold wp at h h' ⊢
  cases hx : x s with
  | ok a s' =>
    rw [hx] at h h'
    exact ⟨h, h'⟩
  | error e s' =>
    rw [hx] at h
    exact h

/-- A sequence meets what its second part meets from where its first part ends. -/
theorem wp.bind {Q : β → σ → Prop} {R : α → σ → Prop} {x : EStateM ε σ α}
    {f : α → EStateM ε σ β} (hx : wp x R E s) (hf : ∀ a s', R a s' → wp (f a) Q E s') :
    wp (x >>= f) Q E s :=
  (wp_bind x f).2 (hx.mono hf)

/-- A run that returns satisfies the postcondition. -/
theorem wp.of_ok {x : EStateM ε σ α} {a : α} {s' : σ} (h : wp x Q E s) (hx : x s = .ok a s') :
    Q a s' := by
  unfold wp at h
  rw [hx] at h
  exact h

/-- A run that stops satisfies the error condition. -/
theorem wp.of_error {x : EStateM ε σ α} {e : ε} {s' : σ} (h : wp x Q E s)
    (hx : x s = .error e s') : E e s' := by
  unfold wp at h
  rw [hx] at h
  exact h

/-- Nothing is known of a run. -/
theorem wp_trivial (x : EStateM ε σ α) (s : σ) : wp x (fun _ _ => True) (fun _ _ => True) s := by
  unfold wp
  cases x s <;> trivial

/-- The rule for a loop over a list: each round keeps the invariant, which may follow the part
of the list still to come. -/
theorem wp_forM {α : Type} (body : α → EStateM ε σ PUnit) (Inv : List α → σ → Prop) {l : List α}
    (hstep : ∀ a rest s, Inv (a :: rest) s → wp (body a) (fun _ => Inv rest) E s) {s : σ}
    (h : Inv l s) : wp (l.forM body) (fun _ => Inv []) E s := by
  induction l generalizing s with
  | nil => exact h
  | cons a rest ih => exact (hstep a rest s h).bind fun _ _ h' => ih h'

/-- A step made `n` times, each from the result of the one before. -/
def repeatM (step : β → EStateM ε σ β) : ℕ → β → EStateM ε σ β
  | 0, b => return b
  | n + 1, b => do
    let b' ← step b
    repeatM step n b'

/-- The rule for a step made several times: each one keeps the invariant, which may follow the number of
steps made so far. -/
theorem wp_repeatM (step : β → EStateM ε σ β) (Inv : ℕ → β → σ → Prop)
    (hstep : ∀ k b s, Inv k b s → wp (step b) (Inv (k + 1)) E s) (n : ℕ) {k : ℕ} {b : β} {s : σ}
    (h : Inv k b s) : wp (repeatM step n b) (Inv (k + n)) E s := by
  induction n generalizing k b s with
  | zero => exact h
  | succ n ih =>
    apply (hstep k b s h).bind
    intro b' s' h'
    rw [Nat.add_comm n 1, ← Nat.add_assoc]
    exact ih h'

end Vpsim.Lib
