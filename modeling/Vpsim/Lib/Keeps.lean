import Vpsim.Lib.StateSpec
import Mathlib.Order.Defs.Unbundled

/-!
# Relations that a program keeps

A program keeps a relation when its initial state is related to the state in which it returns or
stops. For a preorder, a program keeps it when its parts do, so each property of the whole
follows from what the elementary changes do.
-/

namespace Vpsim.Lib

variable {ε σ α β : Type} {R : σ → σ → Prop}

/-- Every run of `x` ends in a state related to the initial one. -/
def Keeps (R : σ → σ → Prop) (x : EStateM ε σ α) : Prop :=
  ∀ s, wp x (fun _ => R s) (fun _ => R s) s

namespace Keeps

theorem modify {f : σ → σ} (hf : ∀ s, R s (f s)) : Keeps R (modify f : EStateM ε σ PUnit) :=
  fun s => hf s

/-- A program that keeps a relation keeps every weaker one. -/
theorem mono {R' : σ → σ → Prop} {x : EStateM ε σ α} (hx : Keeps R x) (hR : ∀ s s', R s s' → R' s s') :
    Keeps R' x :=
  fun s => (hx s).imp (fun _ _ => hR s _) fun _ _ => hR s _

/-- Reading the state first keeps what the rest keeps. -/
theorem getBind {f : σ → EStateM ε σ α} (hf : ∀ s, Keeps R (f s)) : Keeps R (get >>= f) :=
  fun s => (wp_bind get f).2 (hf s s)

variable [IsPreorder σ R]

theorem pure (a : α) : Keeps R (Pure.pure a : EStateM ε σ α) :=
  fun s => refl_of R s

theorem throw (e : ε) : Keeps R (MonadExcept.throw e : EStateM ε σ α) :=
  fun s => refl_of R s

/-- From a state on, a program that keeps the relation ends above it. -/
theorem wp_of_rel {x : EStateM ε σ α} (hx : Keeps R x) {s t : σ} (h : R s t) :
    wp x (fun _ => R s) (fun _ => R s) t := by
  have hrun := hx t
  unfold wp at hrun ⊢
  split at hrun
  · exact trans_of R h hrun
  · exact trans_of R h hrun

omit [IsPreorder σ R] in
/-- A specification may use what the program keeps. -/
theorem wp_of_imp {Q : α → σ → Prop} {E : ε → σ → Prop} {x : EStateM ε σ α} {s : σ} (hx : Keeps R x)
    (h : wp x (fun a s' => R s s' → Q a s') E s) : wp x Q E s := by
  have hrun := hx s
  unfold wp at hrun h ⊢
  cases hres : x s with
  | ok a s' =>
    rw [hres] at hrun h
    exact h hrun
  | error e s' =>
    rw [hres] at h
    exact h

/-- A sequence keeps what its parts keep. -/
theorem bind {x : EStateM ε σ α} {f : α → EStateM ε σ β} (hx : Keeps R x)
    (hf : ∀ a, Keeps R (f a)) : Keeps R (x >>= f) :=
  fun s => (hx s).bind fun a _ hst => (hf a).wp_of_rel hst

omit [IsPreorder σ R] in
/-- A sequence ends in a state related to its start if each part does from where it starts. -/
theorem wp_bind_of_rel [IsTrans σ R] {E : ε → σ → Prop} {x : EStateM ε σ α} {f : α → EStateM ε σ β} {s : σ}
    (hx : wp x (fun _ => R s) E s) (hf : ∀ a s', R s s' → wp (f a) (fun _ => R s') E s') :
    wp (x >>= f) (fun _ => R s) E s :=
  hx.bind fun a s' h => (hf a s' h).mono fun _ _ h' => trans_of R h h'

/-- A loop keeps what its body keeps. -/
theorem forM {ι : Type} {l : List ι} {body : ι → EStateM ε σ PUnit}
    (hbody : ∀ i ∈ l, Keeps R (body i)) : Keeps R (l.forM body) := by
  induction l with
  | nil => exact Keeps.pure _
  | cons i l ih =>
    apply (hbody i List.mem_cons_self).bind
    intro _
    exact ih fun j hj => hbody j (List.mem_cons_of_mem _ hj)

omit [IsPreorder σ R] in
/-- A branch keeps what both sides keep. -/
theorem ite {c : Prop} [Decidable c] {x y : EStateM ε σ α} (hx : c → Keeps R x)
    (hy : ¬ c → Keeps R y) : Keeps R (if c then x else y) := by
  split
  · rename_i hc
    exact hx hc
  · rename_i hc
    exact hy hc

end Keeps

/-- The relation that a program keeps when it keeps the invariant `I`. -/
def Stays (I : σ → Prop) (s s' : σ) : Prop := I s → I s'

instance (I : σ → Prop) : IsPreorder σ (Stays I) where
  refl _ h := h
  trans _ _ _ h h' hs := h' (h hs)

/-- A program that keeps an invariant ends with it. -/
theorem Keeps.wp_of_stays {I : σ → Prop} {x : EStateM ε σ α} (h : Keeps (Stays I) x) {s : σ}
    (hs : I s) : wp x (fun _ => I) (fun _ => I) s :=
  (h s).imp (fun _ _ hI => hI hs) fun _ _ hI => hI hs

end Vpsim.Lib
