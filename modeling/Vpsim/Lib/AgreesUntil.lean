import Vpsim.Lib.StateSpec

/-!
# Programs that agree until one of them stops

A program with tests in it that stop it with an error runs like the one without them, until a test stops it. So what is
proved of the first holds of every run of the second in which no test would have stopped it.
-/

namespace Vpsim.Lib

variable {ε σ α β : Type} {e : ε} {s s' : σ}

/-- Each run of `x` is that of `y`, or stops with the error `e`. -/
def AgreesUntil (e : ε) (x y : EStateM ε σ α) : Prop := ∀ s, x s = y s ∨ ∃ s', x s = .error e s'

namespace AgreesUntil

variable {x y : EStateM ε σ α}

theorem refl (x : EStateM ε σ α) : AgreesUntil e x x := fun _ => .inl rfl

/-- A run that does not stop with the error is the run of the other program. -/
theorem eq (h : AgreesUntil e x y) (hx : ∀ s', x s ≠ .error e s') : x s = y s :=
  (h s).resolve_right fun ⟨s', hs'⟩ => hx s' hs'

/-- A test agrees with no test. -/
theorem guard {c : σ → Prop} [DecidablePred c] :
    AgreesUntil e (do let s ← get; if c s then throw e) (pure ⟨⟩ : EStateM ε σ PUnit) := by
  intro s
  change (if c s then throw e else pure ⟨⟩ : EStateM ε σ PUnit) s = _ ∨
    ∃ s', (if c s then throw e else pure ⟨⟩ : EStateM ε σ PUnit) s = _
  split
  · exact .inr ⟨s, rfl⟩
  · exact .inl rfl

/-- Sequences agree if their parts do. -/
theorem bind {f g : α → EStateM ε σ β} (h : AgreesUntil e x y) (hf : ∀ a, AgreesUntil e (f a) (g a)) :
    AgreesUntil e (x >>= f) (y >>= g) := by
  intro s
  change EStateM.bind x f s = EStateM.bind y g s ∨ ∃ s', EStateM.bind x f s = .error e s'
  unfold EStateM.bind
  rcases h s with heq | ⟨s', hs'⟩
  · rw [heq]
    cases y s with
    | ok a s₁ => exact hf a s₁
    | error e' s₁ => exact .inl rfl
  · rw [hs']
    exact .inr ⟨s', rfl⟩

/-- Branches under one condition agree if both sides do. -/
theorem ite {c : Prop} [Decidable c] {x' y' : EStateM ε σ α} (h : AgreesUntil e x y) (h' : AgreesUntil e x' y') :
    AgreesUntil e (if c then x else x') (if c then y else y') := by
  split
  · exact h
  · exact h'

/-- Loops agree if their bodies do. -/
theorem forM {l : List β} {f g : β → EStateM ε σ PUnit} (h : ∀ b, AgreesUntil e (f b) (g b)) :
    AgreesUntil e (l.forM f) (l.forM g) := by
  induction l with
  | nil => exact refl _
  | cons b l ih => exact (h b).bind fun _ => ih

end AgreesUntil

end Vpsim.Lib
