import Mathlib.Logic.Basic
import Mathlib.Order.RelClasses
import Mathlib.Data.Nat.Init

/-!
# Depth-first propagation of changes

A step at a node recomputes it and returns the nodes that have to be recomputed after it.
`propagate` runs the step at a node and then, depth first and in order, at all the nodes it
returned. The rules: an invariant of the step is one of the whole run (`Confined`); a property
that a step keeps at the other nodes, and establishes at its own, holds at every visited node at
the end, and above every node that has changed (`Settles`); and the recursion ends when the steps
only lead upwards in a well-founded relation.
-/

namespace Vpsim.Lib

variable {M S E : Type}

/-- Runs the step at a node, then at the nodes it returns, to a given depth of recursion. -/
def propagate (step : M → S → Except E (S × List M)) (stop : E) : ℕ → M → S → Except E S
  | 0, _, _ => .error stop
  | n + 1, m, s => do
    let (s, next) ← step m s
    next.foldlM (fun s p => propagate step stop n p s) s

variable {step : M → S → Except E (S × List M)} {stop : E}

/-- A sequence of two computations returns when both do. -/
theorem bind_eq_ok {A B : Type} {x : Except E A} {f : A → Except E B} {b : B} (h : x.bind f = .ok b) :
    ∃ a, x = .ok a ∧ f a = .ok b := by
  cases x with
  | error e => cases h
  | ok a => exact ⟨a, rfl, h⟩

/-- A sequence of two computations fails when one of them does. -/
theorem bind_eq_error {A B : Type} {x : Except E A} {f : A → Except E B} {e : E} (h : x.bind f = .error e) :
    x = .error e ∨ ∃ a, x = .ok a ∧ f a = .error e := by
  cases x with
  | error e' => exact Or.inl (by injection h with h; rw [h])
  | ok a => exact Or.inr ⟨a, rfl, h⟩

/-- A completed run at a node is a step followed by completed runs at the nodes it returned. -/
theorem propagate_eq_ok {n : ℕ} {m : M} {s s' : S} (h : propagate step stop n m s = .ok s') :
    ∃ k s₁ next, n = k + 1 ∧ step m s = .ok (s₁, next) ∧
      next.foldlM (fun s p => propagate step stop k p s) s₁ = .ok s' := by
  cases n with
  | zero => cases h
  | succ n =>
    rw [propagate] at h
    cases hs : step m s with
    | error e => rw [hs] at h; cases h
    | ok r =>
      rw [hs] at h
      exact ⟨n, r.1, r.2, rfl, rfl, h⟩

/-- A sequence of runs returns when its first run and the rest do. -/
theorem foldlM_cons_eq_ok {f : S → M → Except E S} {p : M} {l : List M} {s s' : S}
    (h : (p :: l).foldlM f s = .ok s') : ∃ s₁, f s p = .ok s₁ ∧ l.foldlM f s₁ = .ok s' := by
  rw [List.foldlM_cons] at h
  cases hp : f s p with
  | error e => rw [hp] at h; cases h
  | ok s₁ =>
    rw [hp] at h
    exact ⟨s₁, rfl, h⟩

/-- An invariant of the runs of a sequence, and a property of the errors they can end with. -/
theorem foldlM_spec {A : Type} {f : S → A → Except E S} {P : S → Prop} {Q : E → Prop} {l : List A}
    (hok : ∀ s, P s → ∀ a ∈ l, ∀ s', f s a = .ok s' → P s')
    (herror : ∀ s, P s → ∀ a ∈ l, ∀ e, f s a = .error e → Q e) {s : S} (hs : P s) :
    (∀ s', l.foldlM f s = .ok s' → P s') ∧ ∀ e, l.foldlM f s = .error e → Q e := by
  induction l generalizing s with
  | nil => exact ⟨fun s' h => Except.ok.inj h ▸ hs, fun e h => by cases h⟩
  | cons a l ih =>
    have ih' := @ih (fun s hs b hb => hok s hs b (List.mem_cons_of_mem _ hb))
      (fun s hs b hb => herror s hs b (List.mem_cons_of_mem _ hb))
    rw [List.foldlM_cons]
    cases ha : f s a with
    | error e =>
      refine ⟨fun s' h => (by cases h), fun e' h => ?_⟩
      injection h with h
      exact h ▸ herror s hs a List.mem_cons_self e ha
    | ok s₁ => exact ih' (hok s hs a List.mem_cons_self s₁ ha)

/-- Steps in a zone of the graph keep an invariant and return nodes of the zone. -/
structure Confined (step : M → S → Except E (S × List M)) (zone : M → Prop) (Inv : S → Prop) : Prop where
  inv : ∀ {m s s' next}, zone m → Inv s → step m s = .ok (s', next) → Inv s'
  next : ∀ {m s s' next}, zone m → Inv s → step m s = .ok (s', next) → ∀ p ∈ next, zone p

variable {zone : M → Prop} {Inv : S → Prop}

namespace Confined

/-- A sequence of runs keeps an invariant that each of them keeps. -/
theorem foldlM_of_run {run : S → M → Except E S}
    (hrun : ∀ {p s s'}, zone p → Inv s → run s p = .ok s' → Inv s') {l : List M} (hl : ∀ p ∈ l, zone p)
    {s s' : S} (hs : Inv s) (h : l.foldlM run s = .ok s') : Inv s' := by
  induction l generalizing s with
  | nil => exact Except.ok.inj h ▸ hs
  | cons p l ih =>
    obtain ⟨s₁, hp, hrest⟩ := foldlM_cons_eq_ok h
    exact ih (fun q hq => hl q (List.mem_cons_of_mem _ hq)) (hrun (hl p List.mem_cons_self) hs hp) hrest

/-- A completed run keeps the invariant. -/
theorem propagate (h : Confined step zone Inv) {n : ℕ} {m : M} (hm : zone m) {s s' : S} (hs : Inv s)
    (hrun : propagate step stop n m s = .ok s') : Inv s' := by
  induction n generalizing m s s' with
  | zero => cases hrun
  | succ n ih =>
    obtain ⟨k, s₁, next, hk, hstep, hnext⟩ := propagate_eq_ok hrun
    obtain rfl : n = k := by omega
    exact foldlM_of_run (fun hp hs h => ih hp hs h) (h.next hm hs hstep) (h.inv hm hs hstep) hnext

/-- A run whose steps do not fail can only run out of depth. -/
theorem error_of_propagate (h : Confined step zone Inv)
    (hstep : ∀ {m s e}, zone m → Inv s → step m s ≠ .error e) {n : ℕ} {m : M} (hm : zone m) {s : S} (hs : Inv s)
    {e : E} (hrun : Lib.propagate step stop n m s = .error e) : e = stop := by
  induction n generalizing m s e with
  | zero =>
    injection hrun with hrun
    exact hrun.symm
  | succ n ih =>
    rcases bind_eq_error hrun with hfail | ⟨⟨s₁, next⟩, hok, hnext⟩
    · exact absurd hfail (hstep hm hs)
    · have hzone := h.next hm hs hok
      exact (foldlM_spec (P := Inv) (Q := fun e => e = stop)
        (fun s hs p hp s' hrun => h.propagate (hzone p hp) hs hrun)
        (fun s hs p hp e hrun => ih (hzone p hp) hs hrun) (h.inv hm hs hok)).2 e hnext

/-- A sequence of runs keeps the invariant as well. -/
theorem foldlM (h : Confined step zone Inv) {n : ℕ} {l : List M} (hl : ∀ p ∈ l, zone p) {s s' : S} (hs : Inv s)
    (hrun : l.foldlM (fun s p => Lib.propagate step stop n p s) s = .ok s') : Inv s' :=
  foldlM_of_run (fun hp hs h' => h.propagate hp hs h') hl hs hrun

end Confined

/-- A node property that a step establishes where it is run and keeps elsewhere, except at the
nodes it returns. -/
structure Settles (step : M → S → Except E (S × List M)) (zone : M → Prop) (Inv : S → Prop)
    (ok : M → S → Prop) : Prop extends Confined step zone Inv where
  self : ∀ {m s s' next}, zone m → Inv s → step m s = .ok (s', next) → ok m s' ∨ m ∈ next
  other : ∀ {m s s' next}, zone m → Inv s → step m s = .ok (s', next) →
    ∀ j, j ≠ m → ok j s → ok j s' ∨ j ∈ next

namespace Settles

variable {ok : M → S → Prop}

/-- A sequence of runs, each of which keeps the property everywhere and establishes it at its
node, establishes it at all their nodes. -/
theorem foldlM_of_run {run : S → M → Except E S}
    (hrun : ∀ {p s s'}, zone p → Inv s → run s p = .ok s' → Inv s' ∧ ok p s' ∧ ∀ j, ok j s → ok j s')
    {l : List M} (hl : ∀ p ∈ l, zone p) {s s' : S} (hs : Inv s) (h : l.foldlM run s = .ok s') :
    ∀ j, ok j s ∨ j ∈ l → ok j s' := by
  induction l generalizing s with
  | nil =>
    obtain rfl := Except.ok.inj h
    intro j hj
    rcases hj with hj | hj
    · exact hj
    · cases hj
  | cons p l ih =>
    obtain ⟨s₁, hp, hrest⟩ := foldlM_cons_eq_ok h
    obtain ⟨hinv, hok, hkeep⟩ := hrun (hl p List.mem_cons_self) hs hp
    have hall := ih (fun q hq => hl q (List.mem_cons_of_mem _ hq)) hinv hrest
    intro j hj
    apply hall
    rcases hj with hj | hj
    · exact Or.inl (hkeep j hj)
    · rcases List.mem_cons.mp hj with rfl | hj
      · exact Or.inl hok
      · exact Or.inr hj

/-- A completed run keeps the property where it holds and establishes it at its node. -/
theorem propagate (h : Settles step zone Inv ok) {n : ℕ} {m : M} (hm : zone m) {s s' : S} (hs : Inv s)
    (hrun : propagate step stop n m s = .ok s') : ok m s' ∧ ∀ j, ok j s → ok j s' := by
  induction n generalizing m s s' with
  | zero => cases hrun
  | succ n ih =>
    obtain ⟨k, s₁, next, hk, hstep, hnext⟩ := propagate_eq_ok hrun
    obtain rfl : n = k := by omega
    have hruns : ∀ {p t t'}, zone p → Inv t → Lib.propagate step stop n p t = .ok t' →
        Inv t' ∧ ok p t' ∧ ∀ j, ok j t → ok j t' :=
      fun hp ht h' => ⟨h.toConfined.propagate hp ht h', ih hp ht h'⟩
    have hall := foldlM_of_run hruns (h.next hm hs hstep) (h.inv hm hs hstep) hnext
    refine ⟨hall m (h.self hm hs hstep), fun j hj => ?_⟩
    by_cases hjm : j = m
    · exact hjm ▸ hall m (h.self hm hs hstep)
    · exact hall j (h.other hm hs hstep j hjm hj)

/-- A sequence of runs settles the nodes it starts from as well. -/
theorem foldlM (h : Settles step zone Inv ok) {n : ℕ} {l : List M} (hl : ∀ p ∈ l, zone p) {s s' : S}
    (hs : Inv s) (hrun : l.foldlM (fun s p => Lib.propagate step stop n p s) s = .ok s') :
    ∀ j, ok j s ∨ j ∈ l → ok j s' := by
  have hruns : ∀ {p t t'}, zone p → Inv t → Lib.propagate step stop n p t = .ok t' →
      Inv t' ∧ ok p t' ∧ ∀ j, ok j t → ok j t' :=
    fun hp ht h' => ⟨h.toConfined.propagate hp ht h', h.propagate hp ht h'⟩
  exact foldlM_of_run hruns hl hs hrun

/-- The changes that a sequence of runs makes are followed, when those of each run are. -/
theorem foldlM_changed {O : Type} {out : M → S → O} {above : M → M → Prop} {run : S → M → Except E S}
    (hrun : ∀ {p s s'}, zone p → Inv s → run s p = .ok s' → Inv s' ∧ (∀ j, ok j s → ok j s') ∧
      ∀ y, out y s' ≠ out y s → ∀ j, above j y → ok j s')
    {l : List M} (hl : ∀ p ∈ l, zone p) {s s' : S} (hs : Inv s) (h : l.foldlM run s = .ok s') :
    (∀ j, ok j s → ok j s') ∧ ∀ y, out y s' ≠ out y s → ∀ j, above j y → ok j s' := by
  induction l generalizing s with
  | nil =>
    obtain rfl := Except.ok.inj h
    exact ⟨fun j hj => hj, fun y hy => absurd rfl hy⟩
  | cons p l ih =>
    obtain ⟨s₁, hp, hrest⟩ := foldlM_cons_eq_ok h
    obtain ⟨hinv, hkeep, hchanged⟩ := hrun (hl p List.mem_cons_self) hs hp
    obtain ⟨hkeep', hchanged'⟩ := ih (fun q hq => hl q (List.mem_cons_of_mem _ hq)) hinv hrest
    refine ⟨fun j hj => hkeep' j (hkeep j hj), fun y hy j hj => ?_⟩
    by_cases hy' : out y s' = out y s₁
    · exact hkeep' j (hchanged y (fun h => hy (hy'.trans h)) j hj)
    · exact hchanged' y hy' j hj

/-- Where a step returns all nodes above those that it changes, a run establishes the property
above every node that it has changed. -/
theorem propagate_changed {O : Type} {out : M → S → O} {above : M → M → Prop} (h : Settles step zone Inv ok)
    (hfollow : ∀ {m s s' next}, zone m → Inv s → step m s = .ok (s', next) →
      ∀ y, out y s' ≠ out y s → ∀ j, above j y → j ∈ next)
    {n : ℕ} {m : M} (hm : zone m) {s s' : S} (hs : Inv s)
    (hrun : Lib.propagate step stop n m s = .ok s') :
    ∀ y, out y s' ≠ out y s → ∀ j, above j y → ok j s' := by
  induction n generalizing m s s' with
  | zero => cases hrun
  | succ n ih =>
    obtain ⟨k, s₁, next, hk, hstep, hnext⟩ := propagate_eq_ok hrun
    obtain rfl : n = k := by omega
    have hinv := h.inv hm hs hstep
    have hzone := h.next hm hs hstep
    have hall := h.foldlM hzone hinv hnext
    have hnested : (∀ j, ok j s₁ → ok j s') ∧ ∀ y, out y s' ≠ out y s₁ → ∀ j, above j y → ok j s' :=
      foldlM_changed
        (fun hp hs h' => ⟨h.toConfined.propagate hp hs h', (h.propagate hp hs h').2, ih hp hs h'⟩)
        hzone hinv hnext
    intro y hy j hj
    by_cases hy' : out y s₁ = out y s
    · exact hnested.2 y (fun h => hy (h.trans hy')) j hj
    · exact hall j (Or.inr (hfollow hm hs hstep y hy' j hj))

end Settles

/-! ## Depth of the recursion -/

/-- Runs that agree wherever the first ones do not run out of depth agree in sequence. -/
theorem foldlM_congr_of_ne {f g : S → M → Except E S}
    (hfg : ∀ s p, f s p ≠ .error stop → g s p = f s p) {l : List M} {s : S}
    (h : l.foldlM f s ≠ .error stop) : l.foldlM g s = l.foldlM f s := by
  induction l generalizing s with
  | nil => rfl
  | cons p l ih =>
    rw [List.foldlM_cons] at h ⊢
    rw [List.foldlM_cons]
    cases hp : f s p with
    | error e =>
      rw [hp] at h
      rw [hfg s p (by rw [hp]; exact h), hp]
      rfl
    | ok s₁ =>
      rw [hp] at h
      rw [hfg s p (by rw [hp]; exact fun h' => by cases h'), hp]
      exact ih h

/-- More depth does not change a run that did not run out of it. -/
theorem propagate_mono {n k : ℕ} (hnk : n ≤ k) {m : M} {s : S}
    (h : propagate step stop n m s ≠ .error stop) :
    propagate step stop k m s = propagate step stop n m s := by
  induction n generalizing k m s with
  | zero => exact absurd rfl h
  | succ n ih =>
    obtain ⟨k, rfl⟩ : ∃ k', k = k' + 1 := ⟨k - 1, by omega⟩
    rw [propagate] at h
    rw [propagate, propagate]
    cases hs : step m s with
    | error e => rfl
    | ok r =>
      rw [hs] at h
      exact foldlM_congr_of_ne (fun s p hp => ih (by omega) hp) h

/-- The recursion from `m` ends. -/
def Terminates (step : M → S → Except E (S × List M)) (stop : E) (m : M) (s : S) : Prop :=
  ∃ n, propagate step stop n m s ≠ .error stop

/-- A sequence of runs ends when each of them does, from every state that it can meet. -/
theorem terminates_foldlM {P : S → Prop} {l : List M}
    (hrun : ∀ p ∈ l, ∀ s, P s → Terminates step stop p s ∧
      ∀ n s', propagate step stop n p s = .ok s' → P s') {s : S} (hs : P s) :
    ∃ n, l.foldlM (fun s p => propagate step stop n p s) s ≠ .error stop := by
  induction l generalizing s with
  | nil => exact ⟨0, fun h => by cases h⟩
  | cons p l ih =>
    obtain ⟨⟨n, hn⟩, hkeep⟩ := hrun p List.mem_cons_self s hs
    cases hp : propagate step stop n p s with
    | error e =>
      refine ⟨n, ?_⟩
      rw [hp] at hn
      rw [List.foldlM_cons, hp]
      exact hn
    | ok s₁ =>
      obtain ⟨k, hk⟩ := ih (fun q hq => hrun q (List.mem_cons_of_mem _ hq)) (hkeep n s₁ hp)
      refine ⟨max n k, ?_⟩
      have hmono : l.foldlM (fun s p => propagate step stop (max n k) p s) s₁ =
          l.foldlM (fun s p => propagate step stop k p s) s₁ :=
        foldlM_congr_of_ne (fun s p hp => propagate_mono (Nat.le_max_right n k) hp) hk
      rw [List.foldlM_cons, propagate_mono (Nat.le_max_left n k) hn, hp]
      exact fun h => hk (hmono.symm.trans h)

/-- A run ends when the sequence of runs that its step asks for ends. -/
theorem terminates_of_next {m : M} {s : S} (hstep : step m s ≠ .error stop)
    (hnext : ∀ s' next, step m s = .ok (s', next) →
      ∃ n, next.foldlM (fun s p => propagate step stop n p s) s' ≠ .error stop) :
    Terminates step stop m s := by
  cases hs : step m s with
  | error e =>
    refine ⟨1, ?_⟩
    rw [propagate, hs]
    intro h
    have he : e = stop := by injection h
    exact hstep (he ▸ hs)
  | ok r =>
    obtain ⟨n, hn⟩ := hnext r.1 r.2 hs
    refine ⟨n + 1, ?_⟩
    rw [propagate, hs]
    exact hn

/-- The recursion ends when each step only asks for nodes above its own. -/
theorem terminates_of_wellFounded {above : M → M → Prop} (hwf : WellFounded above) {Inv : S → Prop}
    (hinv : ∀ {m s s' next}, Inv s → step m s = .ok (s', next) → Inv s')
    (hstep : ∀ m s, Inv s → step m s ≠ .error stop)
    (habove : ∀ {m s s' next}, Inv s → step m s = .ok (s', next) → ∀ p ∈ next, above p m)
    (m : M) {s : S} (hs : Inv s) : Terminates step stop m s := by
  have hconfined : Confined step (fun _ => True) Inv :=
    ⟨fun _ hs h => hinv hs h, fun _ _ _ _ _ => trivial⟩
  have hrun : ∀ {n m s s'}, Inv s → propagate step stop n m s = .ok s' → Inv s' := fun hs h =>
    hconfined.propagate trivial hs h
  induction m using hwf.induction generalizing s with
  | _ m ih =>
    refine terminates_of_next (hstep m s hs) fun s' next hnext => ?_
    exact terminates_foldlM (P := Inv)
      (fun p hp t ht => ⟨ih p (habove hs hnext p hp) ht, fun n t' h => hrun ht h⟩) (hinv hs hnext)

end Vpsim.Lib
