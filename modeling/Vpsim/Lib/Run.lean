import Vpsim.Lib.StateSpec
import Vpsim.Lib.Keeps
import Mathlib.Data.Nat.Notation

/-!
# Runs whose steps meet a condition

A run executes a list of operations one after the other and ends at the first that stops.
`Along` says that every operation of the run meets a condition in the state it starts from. What
one such operation keeps, the whole run keeps. `Rounds` says the same of the rounds of a loop.
-/

namespace Vpsim.Lib

variable {ε σ ι : Type} {step : ι → EStateM ε σ PUnit} {cond : σ → ι → Prop}

/-- The state in which a run ends. -/
def endState {α : Type} : EStateM.Result ε σ α → σ
  | .ok _ s => s
  | .error _ s => s

/-- What holds however a run ends holds of the state in which it ends. -/
theorem wp.endState {α : Type} {x : EStateM ε σ α} {P : σ → Prop} {s : σ}
    (h : wp x (fun _ => P) (fun _ => P) s) : P (endState (x s)) := by
  unfold wp at h
  cases hx : x s with
  | ok a t =>
    rw [hx] at h
    exact h
  | error e t =>
    rw [hx] at h
    exact h

/-- Whether a run returns. -/
def returns {α : Type} : EStateM.Result ε σ α → Bool
  | .ok _ _ => true
  | .error _ _ => false

/-- A run that is seen to return ends in its end state. -/
theorem eq_ok_endState {r : EStateM.Result ε σ PUnit} (h : returns r = true) : r = .ok ⟨⟩ (Lib.endState r) := by
  cases r with
  | ok u s => rfl
  | error e s => cases h

/-- A run that is seen to return has a result and ends in its end state. -/
theorem exists_ok_endState {α : Type} {r : EStateM.Result ε σ α} (h : returns r = true) :
    ∃ a, r = .ok a (Lib.endState r) := by
  cases r with
  | ok a s => exact ⟨a, rfl⟩
  | error e s => cases h

/-- Whether a run stops as `p` says. -/
def stopsWith {α : Type} (p : ε → σ → Bool) : EStateM.Result ε σ α → Bool
  | .ok _ _ => false
  | .error e s => p e s

/-- A run that is seen to stop has an error with the property. -/
theorem exists_error_of_stopsWith {α : Type} {p : ε → σ → Bool} {r : EStateM.Result ε σ α}
    (h : stopsWith p r = true) : ∃ e s, r = .error e s ∧ p e s = true := by
  cases r with
  | ok a s => cases h
  | error e s => exact ⟨e, s, rfl, h⟩

/-- A program goes on from where its first part returned. -/
theorem bind_of_ok {α β : Type} {x : EStateM ε σ α} {f : α → EStateM ε σ β} {s s' : σ} {a : α}
    (h : x s = .ok a s') : (x >>= f) s = f a s' := by
  change EStateM.bind x f s = _
  unfold EStateM.bind
  rw [h]

/-- A program ends where its first part stopped. -/
theorem bind_of_error {α β : Type} {x : EStateM ε σ α} {f : α → EStateM ε σ β} {s s' : σ} {e : ε}
    (h : x s = .error e s') : (x >>= f) s = .error e s' := by
  change EStateM.bind x f s = _
  unfold EStateM.bind
  rw [h]

/-- Every operation of the run from `s` meets the condition in the state it starts from. -/
def Along (step : ι → EStateM ε σ PUnit) (cond : σ → ι → Prop) : σ → List ι → Prop
  | _, [] => True
  | s, op :: ops => cond s op ∧ ∀ s', step op s = .ok ⟨⟩ s' → Along step cond s' ops

/-- An invariant that each operation keeps, and that gives a property of the states in which an
operation stops, holds over the run. -/
theorem Along.wp_forM {Inv : σ → Prop} {E : ε → σ → Prop} {ops : List ι}
    (hstep : ∀ s, ∀ op ∈ ops, Inv s → cond s op → wp (step op) (fun _ => Inv) E s) {s : σ}
    (hc : Along step cond s ops) (h : Inv s) : wp (ops.forM step) (fun _ => Inv) E s := by
  induction ops generalizing s with
  | nil => exact h
  | cons op ops ih =>
    obtain ⟨hop, hrest⟩ := hc
    have hfirst := hstep s op List.mem_cons_self h hop
    apply wp.step
    cases hrun : step op s with
    | ok u s' =>
      have hs' := hfirst.of_ok hrun
      unfold wp
      rw [hrun]
      exact ih (fun s op hop => hstep s op (List.mem_cons_of_mem _ hop)) (hrest s' hrun) hs'
    | error e s' =>
      have hs' := hfirst.of_error hrun
      unfold wp
      rw [hrun]
      exact hs'

/-- A loop by an invariant that follows the part of the list still to come. -/
theorem wp_forM_of {Q : PUnit → σ → Prop} {E : ε → σ → Prop} {l : List ι} {s : σ} (Inv : List ι → σ → Prop)
    (h : Inv l s) (hstep : ∀ i rest s, Inv (i :: rest) s → wp (step i) (fun _ => Inv rest) E s)
    (hQ : ∀ s', Inv [] s' → Q ⟨⟩ s') : wp (l.forM step) Q E s :=
  (wp_forM step Inv hstep h).mono fun _ => hQ

/-- A run keeps an invariant that each of its operations keeps. -/
theorem wp_forM_mem {Inv : σ → Prop} {E : ε → σ → Prop} {ops : List ι}
    (hstep : ∀ s, ∀ op ∈ ops, Inv s → wp (step op) (fun _ => Inv) E s) {s : σ} (h : Inv s) :
    wp (ops.forM step) (fun _ => Inv) E s := by
  induction ops generalizing s with
  | nil => exact h
  | cons op ops ih =>
    apply (hstep s op List.mem_cons_self h).bind
    intro _ s' h'
    exact ih (fun s op hop => hstep s op (List.mem_cons_of_mem _ hop)) h'

/-- A run that returns goes through the state after its first operation. -/
theorem forM_cons_ok {s t : σ} {op : ι} {ops : List ι} (h : (op :: ops).forM step s = .ok ⟨⟩ t) :
    ∃ s', step op s = .ok ⟨⟩ s' ∧ ops.forM step s' = .ok ⟨⟩ t := by
  change EStateM.bind (step op) (fun _ => ops.forM step) s = _ at h
  unfold EStateM.bind at h
  cases hop : step op s with
  | ok u s' =>
    rw [hop] at h
    exact ⟨s', rfl, h⟩
  | error e s' =>
    rw [hop] at h
    cases h

/-- A run behind one that returned starts where that one ended. -/
theorem forM_append_of_ok {s s' : σ} {l m : List ι} (h : l.forM step s = .ok ⟨⟩ s') :
    (l ++ m).forM step s = m.forM step s' := by
  induction l generalizing s with
  | nil =>
    cases h
    rfl
  | cons op l ih =>
    change EStateM.bind (step op) (fun _ => (l ++ m).forM step) s = _
    change EStateM.bind (step op) (fun _ => l.forM step) s = _ at h
    unfold EStateM.bind at h ⊢
    cases hop : step op s with
    | ok u s₁ =>
      rw [hop] at h
      exact ih h
    | error e s₁ =>
      rw [hop] at h
      cases h

/-- A run behind one that stopped stops there. -/
theorem forM_append_of_error {s s' : σ} {e : ε} {l m : List ι} (h : l.forM step s = .error e s') :
    (l ++ m).forM step s = .error e s' := by
  induction l generalizing s with
  | nil => cases h
  | cons op l ih =>
    change EStateM.bind (step op) (fun _ => (l ++ m).forM step) s = _
    change EStateM.bind (step op) (fun _ => l.forM step) s = _ at h
    unfold EStateM.bind at h ⊢
    cases hop : step op s with
    | ok u s₁ =>
      rw [hop] at h
      exact ih h
    | error e₁ s₁ =>
      rw [hop] at h
      exact h

/-- The rest of a run that meets the condition meets it. -/
theorem Along.append {s s' : σ} {l m : List ι} (h : Along step cond s (l ++ m))
    (hl : l.forM step s = .ok ⟨⟩ s') : Along step cond s' m := by
  induction l generalizing s with
  | nil =>
    cases hl
    exact h
  | cons op l ih =>
    obtain ⟨s₁, hop, hrest⟩ := forM_cons_ok hl
    exact ih (h.2 s₁ hop) hrest

/-- The beginning of a run that meets the condition meets it. -/
theorem Along.left {s : σ} {l m : List ι} (h : Along step cond s (l ++ m)) : Along step cond s l := by
  induction l generalizing s with
  | nil => exact trivial
  | cons op l ih => exact ⟨h.1, fun s' hop => ih (h.2 s' hop)⟩

/-- What each operation that meets the condition keeps holds at the end of a run that returns. -/
theorem Along.of_forM_ok {Inv : σ → Prop} {s s' : σ} {l : List ι} (h : Along step cond s l)
    (hstep : ∀ s, ∀ op ∈ l, ∀ s', Inv s → cond s op → step op s = .ok ⟨⟩ s' → Inv s') (hs : Inv s)
    (hrun : l.forM step s = .ok ⟨⟩ s') : Inv s' := by
  induction l generalizing s with
  | nil =>
    cases hrun
    exact hs
  | cons op l ih =>
    obtain ⟨s₁, hop, hrest⟩ := forM_cons_ok hrun
    have hs₁ := hstep s op List.mem_cons_self s₁ hs h.1 hop
    exact ih (h.2 s₁ hop) (fun s op hmem => hstep s op (List.mem_cons_of_mem _ hmem)) hs₁ hrest

/-- What each operation keeps holds at the end of a run that returns. -/
theorem of_forM_ok {Inv : σ → Prop} {s s' : σ} {l : List ι}
    (hstep : ∀ s, ∀ op ∈ l, ∀ s', Inv s → step op s = .ok ⟨⟩ s' → Inv s') (hs : Inv s)
    (hrun : l.forM step s = .ok ⟨⟩ s') : Inv s' := by
  induction l generalizing s with
  | nil =>
    cases hrun
    exact hs
  | cons op l ih =>
    obtain ⟨s₁, hop, hrest⟩ := forM_cons_ok hrun
    have hs₁ := hstep s op List.mem_cons_self s₁ hs hop
    exact ih (fun s op hmem => hstep s op (List.mem_cons_of_mem _ hmem)) hs₁ hrest

/-- A run whose operations lower a rank is no longer than the rank it starts with. -/
theorem length_le_of_rank {Inv : σ → Prop} {rank : σ → ℕ} {s s' : σ} {l : List ι}
    (hstep : ∀ s, ∀ op ∈ l, ∀ s', Inv s → step op s = .ok ⟨⟩ s' → Inv s' ∧ rank s' < rank s) (hs : Inv s)
    (hrun : l.forM step s = .ok ⟨⟩ s') : l.length + rank s' ≤ rank s := by
  induction l generalizing s with
  | nil =>
    cases hrun
    exact Nat.le_of_eq (Nat.zero_add _)
  | cons op l ih =>
    obtain ⟨s₁, hop, hrest⟩ := forM_cons_ok hrun
    obtain ⟨hs₁, hlt⟩ := hstep s op List.mem_cons_self s₁ hs hop
    have hle := ih (fun s op hmem => hstep s op (List.mem_cons_of_mem _ hmem)) hs₁ hrest
    rw [List.length_cons]
    omega

/-- A run has no more operations of one kind than those of another kind allow, each of which lets the rank rise by
`bound`, and the rank it starts with. -/
theorem countP_le_of_rank {rank : σ → ℕ} {p q : ι → Bool} {bound : ℕ} {s s' : σ} {l : List ι}
    (hstep : ∀ s op s', step op s = .ok ⟨⟩ s' →
      (if p op then 1 else 0) + rank s' ≤ (if q op then bound else 0) + rank s)
    (hrun : l.forM step s = .ok ⟨⟩ s') : l.countP p + rank s' ≤ bound * l.countP q + rank s := by
  induction l generalizing s with
  | nil =>
    cases hrun
    exact Nat.le_of_eq (by rw [List.countP_nil, List.countP_nil, Nat.mul_zero])
  | cons op l ih =>
    obtain ⟨s₁, hop, hrest⟩ := forM_cons_ok hrun
    have hfirst := hstep s op s₁ hop
    have hlater := ih hrest
    rw [List.countP_cons, List.countP_cons, Nat.mul_add]
    have hbound : bound * (if q op then 1 else 0) = if q op then bound else 0 := by
      split
      · exact Nat.mul_one _
      · exact Nat.mul_zero _
    omega

/-- A run that meets two conditions meets both together. -/
theorem Along.and {cond' : σ → ι → Prop} {s : σ} {l : List ι} (h : Along step cond s l)
    (h' : Along step cond' s l) : Along step (fun s op => cond s op ∧ cond' s op) s l := by
  induction l generalizing s with
  | nil => exact trivial
  | cons op l ih => exact ⟨⟨h.1, h'.1⟩, fun s' hop => ih (h.2 s' hop) (h'.2 s' hop)⟩

/-- What each operation has under the condition and an invariant, every operation of the run has. -/
theorem Along.imp {cond' : σ → ι → Prop} (Inv : σ → Prop) {s : σ} {l : List ι}
    (hstep : ∀ s op s', Inv s → cond s op → step op s = .ok ⟨⟩ s' → Inv s')
    (hcond : ∀ s op, Inv s → cond s op → cond' s op) (h : Along step cond s l) (hs : Inv s) :
    Along step cond' s l := by
  induction l generalizing s with
  | nil => exact trivial
  | cons op l ih =>
    refine ⟨hcond s op hs h.1, fun s' hop => ?_⟩
    exact ih (h.2 s' hop) (hstep s op s' hs h.1 hop)

/-- A run that meets the condition still does with an operation in front that meets it. -/
theorem Along.cons {s : σ} {op : ι} {l : List ι} (hop : cond s op)
    (h : Along step cond (Lib.endState (step op s)) l) : Along step cond s (op :: l) := by
  refine ⟨hop, fun s' hrun => ?_⟩
  rw [hrun] at h
  exact h

/-- A run meets a condition that its operations have under an invariant they keep. -/
theorem Along.of_inv (Inv : σ → Prop) {ops : List ι}
    (hstep : ∀ s, ∀ op ∈ ops, ∀ s', Inv s → step op s = .ok ⟨⟩ s' → Inv s')
    (hcond : ∀ s, ∀ op ∈ ops, Inv s → cond s op) {s : σ} (h : Inv s) : Along step cond s ops := by
  induction ops generalizing s with
  | nil => exact trivial
  | cons op ops ih =>
    refine ⟨hcond s op List.mem_cons_self h, fun s' hop => ?_⟩
    exact ih (fun s op hop => hstep s op (List.mem_cons_of_mem _ hop))
      (fun s op hop => hcond s op (List.mem_cons_of_mem _ hop)) (hstep s op List.mem_cons_self s' h hop)

/-- Every state that the run from `s` goes through has the property. -/
def Throughout (step : ι → EStateM ε σ PUnit) (P : σ → Prop) (s : σ) (ops : List ι) : Prop :=
  ∀ done rest t, ops = done ++ rest → done.forM step s = .ok ⟨⟩ t → P t

/-- A property holds throughout a run exactly when the run meets the condition, if the invariant that
the condition keeps gives the property, and an operation that violates the condition breaks it. -/
theorem throughout_iff_along {Inv P : σ → Prop} (hP : ∀ s, Inv s → P s)
    (ops : List ι) (hkeep : ∀ s, ∀ op ∈ ops, ∀ s', Inv s → cond s op → step op s = .ok ⟨⟩ s' → Inv s')
    (hbreak : ∀ s, ∀ op ∈ ops, Inv s → ¬ cond s op → ∃ s', step op s = .ok ⟨⟩ s' ∧ ¬ P s') {s : σ}
    (hs : Inv s) : Throughout step P s ops ↔ Along step cond s ops := by
  induction ops generalizing s with
  | nil =>
    refine iff_of_true (fun done rest t hsplit hrun => ?_) trivial
    obtain ⟨rfl, -⟩ := List.append_eq_nil_iff.1 hsplit.symm
    cases hrun
    exact hP s hs
  | cons op ops ih =>
    have hfirst := List.mem_cons_self (a := op) (l := ops)
    have ih' := @ih (fun s op hop => hkeep s op (List.mem_cons_of_mem _ hop))
      (fun s op hop => hbreak s op (List.mem_cons_of_mem _ hop))
    constructor
    · intro h
      have hop : cond s op := by
        apply Classical.byContradiction
        intro hviolated
        obtain ⟨s', hrun, hbroken⟩ := hbreak s op hfirst hs hviolated
        exact hbroken (h [op] ops s' rfl (bind_of_ok hrun))
      refine ⟨hop, fun s' hrun => (ih' (hkeep s op hfirst s' hs hop hrun)).1 fun done rest t hsplit hdone => ?_⟩
      exact h (op :: done) rest t (congrArg (op :: ·) hsplit) ((bind_of_ok hrun).trans hdone)
    · intro ⟨hop, hrest⟩ done rest t hsplit hdone
      cases done with
      | nil =>
        cases hdone
        exact hP s hs
      | cons op' done =>
        obtain ⟨rfl, htail⟩ := List.cons.inj hsplit
        obtain ⟨s', hrun, hdone⟩ := forM_cons_ok hdone
        exact (ih' (hkeep s op hfirst s' hs hop hrun)).2 (hrest s' hrun) done rest t htail hdone

section Loop

variable {α : Type} {body : α → EStateM ε σ (Option α)} {round : σ → α → Prop} {stop : ε}

/-- A loop of at most `n` rounds. Each round says with which argument to go on, if at all. -/
def loop (body : α → EStateM ε σ (Option α)) (stop : ε) : ℕ → α → EStateM ε σ PUnit
  | 0, _ => throw stop
  | n + 1, x => do
    match ← body x with
    | none => return ⟨⟩
    | some y => loop body stop n y

/-- Every round of the loop meets the condition in the state from which it starts. -/
def Rounds (body : α → EStateM ε σ (Option α)) (round : σ → α → Prop) : ℕ → σ → α → Prop
  | 0, _, _ => True
  | n + 1, s, x => round s x ∧ ∀ y s', body x s = .ok (some y) s' → Rounds body round n s' y

/-- The argument with which a round goes on. -/
def next : EStateM.Result ε σ (Option α) → Option α
  | .ok r _ => r
  | .error _ _ => none

/-- A loop whose first round is the last has its rounds if this round is one. -/
theorem Rounds.last {n : ℕ} {s : σ} {x : α} (h : round s x) (hlast : next (body x s) = none) :
    Rounds body round n s x := by
  cases n with
  | zero => exact trivial
  | succ n =>
    refine ⟨h, fun y s' hrun => ?_⟩
    rw [hrun] at hlast
    cases hlast

/-- A loop has its rounds if the first one is one and the loop from the state after it has them. -/
theorem Rounds.cons {n : ℕ} {s : σ} {x y : α} (h : round s x) (hnext : next (body x s) = some y)
    (hrest : Rounds body round n (endState (body x s)) y) : Rounds body round (n + 1) s x := by
  refine ⟨h, fun z s' hrun => ?_⟩
  rw [hrun] at hnext hrest
  cases hnext
  exact hrest

/-- A loop keeps an invariant that each of its rounds keeps. -/
theorem Rounds.wp_loop {Inv : σ → Prop} {E : ε → σ → Prop} {n : ℕ}
    (hround : ∀ s x, Inv s → round s x → wp (body x) (fun _ => Inv) E s)
    (hstop : ∀ s, Inv s → E stop s) {s : σ} {x : α} (hr : Rounds body round n s x) (hs : Inv s) :
    wp (loop body stop n x) (fun _ => Inv) E s := by
  induction n generalizing s x with
  | zero => exact hstop s hs
  | succ n ih =>
    have hfirst := hround s x hs hr.1
    apply wp.step
    cases hrun : body x s with
    | ok r s' =>
      have hs' := hfirst.of_ok hrun
      unfold wp
      rw [hrun]
      cases r with
      | none => exact hs'
      | some y => exact ih (hr.2 y s' hrun) hs'
    | error e s' =>
      have hs' := hfirst.of_error hrun
      unfold wp
      rw [hrun]
      exact hs'

/-- A loop whose argument takes part in the invariant and gets smaller from round to round. -/
theorem Rounds.wp_loop_of_lt (Inv : σ → α → Prop) (size : α → ℕ) {Q : σ → Prop} {E : ε → σ → Prop}
    (hround : ∀ s x, Inv s x → round s x → wp (body x)
      (fun r t => (r = none → Q t) ∧ ∀ y, r = some y → Inv t y ∧ size y < size x) E s) {n : ℕ}
    {s : σ} {x : α} (hn : size x < n) (hr : Rounds body round n s x) (hs : Inv s x) :
    wp (loop body stop n x) (fun _ => Q) E s := by
  induction n generalizing s x with
  | zero => exact absurd hn (Nat.not_lt_zero _)
  | succ n ih =>
    have hfirst := hround s x hs hr.1
    apply wp.step
    cases hrun : body x s with
    | ok r s' =>
      obtain ⟨hlast, hnext⟩ := hfirst.of_ok hrun
      unfold wp
      rw [hrun]
      cases r with
      | none => exact hlast rfl
      | some y =>
        obtain ⟨hy, hlt⟩ := hnext y rfl
        exact ih (Nat.lt_of_lt_of_le hlt (Nat.le_of_lt_succ hn)) (hr.2 y s' hrun) hy
    | error e s' =>
      have hs' := hfirst.of_error hrun
      unfold wp
      rw [hrun]
      exact hs'

/-- A loop whose state and argument get smaller from round to round ends before it runs out of rounds. -/
theorem wp_loop_of_lt (Inv : σ → α → Prop) (size : σ → α → ℕ) {Q : σ → Prop} {E : ε → σ → Prop}
    (hround : ∀ s x, Inv s x → wp (body x)
      (fun r t => (r = none → Q t) ∧ ∀ y, r = some y → Inv t y ∧ size t y < size s x) E s) {n : ℕ}
    {s : σ} {x : α} (hn : size s x < n) (hs : Inv s x) : wp (loop body stop n x) (fun _ => Q) E s := by
  induction n generalizing s x with
  | zero => exact absurd hn (Nat.not_lt_zero _)
  | succ n ih =>
    refine (hround s x hs).bind fun r t hr => ?_
    cases r with
    | none => exact hr.1 rfl
    | some y =>
      obtain ⟨hy, hlt⟩ := hr.2 y rfl
      exact ih (Nat.lt_of_lt_of_le hlt (Nat.le_of_lt_succ hn)) hy

/-- A loop of which nothing is asked when it runs out of rounds meets the postcondition of its last
round. -/
theorem wp_loop (Inv : σ → α → Prop) {Q : σ → Prop} {E : ε → σ → Prop}
    (hround : ∀ s x, Inv s x → wp (body x) (fun r t => (r = none → Q t) ∧ ∀ y, r = some y → Inv t y) E s)
    (hstop : ∀ s, E stop s) (n : ℕ) {s : σ} {x : α} (hs : Inv s x) : wp (loop body stop n x) (fun _ => Q) E s := by
  induction n generalizing s x with
  | zero => exact hstop s
  | succ n ih =>
    refine (hround s x hs).bind fun r t hr => ?_
    cases r with
    | none => exact hr.1 rfl
    | some y => exact ih (hr.2 y rfl)

/-- A loop keeps a relation that each round keeps. -/
theorem Keeps.loop {R : σ → σ → Prop} [IsPreorder σ R] (hbody : ∀ x, Keeps R (body x)) (n : ℕ) (x : α) :
    Keeps R (Lib.loop body stop n x) := by
  induction n generalizing x with
  | zero => exact .throw _
  | succ n ih =>
    refine (hbody x).bind fun y => ?_
    cases y with
    | none => exact .pure _
    | some y => exact ih y

/-- What each round has under the condition and an invariant, every round has. -/
theorem Rounds.imp {round' : σ → α → Prop} (Inv : σ → Prop) {n : ℕ}
    (hround : ∀ s x r s', Inv s → round s x → body x s = .ok r s' → Inv s')
    (hcond : ∀ s x, Inv s → round s x → round' s x) {s : σ} {x : α} (hr : Rounds body round n s x)
    (hs : Inv s) : Rounds body round' n s x := by
  induction n generalizing s x with
  | zero => exact trivial
  | succ n ih =>
    refine ⟨hcond s x hs hr.1, fun y s' hrun => ?_⟩
    exact ih (hr.2 y s' hrun) (hround s x _ s' hs hr.1 hrun)

end Loop

end Vpsim.Lib
