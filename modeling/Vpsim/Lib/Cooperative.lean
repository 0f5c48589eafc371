import Vpsim.Lib.Run

/-!
# A thread on a cooperative kernel

One thread of a discrete-event simulation among other processes. The thread runs until it waits, for
its event and for a timeout if it names one. Other processes call operations of its object, between
its activations, and may notify the event. A notification takes effect in the next delta cycle, and so
does a timeout of no time at all. Time advances once nothing is left to do at the present, and never
past the timeout of the thread.
-/

namespace Vpsim.Lib

/-- A thread with its object. `body` runs from one wait to the next and returns where the thread waits
and its timeout; `call` is an operation by another process, which says whether it notifies the event. -/
structure Thread (σ κ ι : Type) where
  body : (now : ℕ) → κ → σ → σ × κ × Option ℕ
  call : (now : ℕ) → ι → σ → σ × Bool

/-- Whether the thread is to be resumed or waits, and until when. -/
inductive Wake
  | runnable
  | blocked (deadline : Option ℕ)
deriving DecidableEq

/-- A state of the simulation. -/
structure Simulation (σ κ : Type) where
  now : ℕ
  object : σ
  point : κ
  wake : Wake
  notified : Bool

/-- What can happen next. -/
inductive Action (ι : Type)
  | call (op : ι)
  | resume
  | delta
  | advance (time : ℕ)
deriving DecidableEq

/-- The action is a call of another process. -/
def Action.IsCall {ι : Type} : Action ι → Prop
  | .call _ => True
  | _ => False

namespace Thread

variable {σ κ ι : Type} (T : Thread σ κ ι)

/-- The simulation starts at time 0 with the thread not yet run. -/
def start (object : σ) (point : κ) : Simulation σ κ := ⟨0, object, point, .runnable, false⟩

/-- A call by another process. -/
def afterCall (op : ι) (s : Simulation σ κ) : Simulation σ κ :=
  let r := T.call s.now op s.object
  { s with object := r.1, notified := s.notified || r.2 }

/-- The thread runs to its next wait. -/
def afterResume (s : Simulation σ κ) : Simulation σ κ :=
  let r := T.body s.now s.point s.object
  { s with object := r.1, point := r.2.1, wake := .blocked (r.2.2.map (s.now + ·)) }

/-- The state after an action, if the kernel can take it: only a runnable thread is resumed; a delta
cycle starts once the thread waits, and wakes it if its event is notified or its timeout is now; time
advances if neither is the case, up to the timeout. -/
def after (a : Action ι) (s : Simulation σ κ) : Option (Simulation σ κ) :=
  match a, s.wake with
  | .call op, _ => some (T.afterCall op s)
  | .resume, .runnable => some (T.afterResume s)
  | .delta, .blocked d =>
    if s.notified = true ∨ d = some s.now then some { s with wake := .runnable, notified := false }
    else none
  | .advance t, .blocked d =>
    if s.notified = false ∧ s.now < t ∧ ∀ e ∈ d, t ≤ e then
      some { s with now := t, wake := if d = some t then .runnable else .blocked d }
    else none
  | _, _ => none

/-- One action of a run, which ends at one that the kernel cannot take. -/
def step (a : Action ι) : EStateM Unit (Simulation σ κ) PUnit := fun s =>
  match T.after a s with
  | some s' => .ok ⟨⟩ s'
  | none => .error () s

variable {T} {s s' : Simulation σ κ}

theorem step_eq_ok {a : Action ι} : T.step a s = .ok ⟨⟩ s' ↔ T.after a s = some s' := by
  unfold step
  cases h : T.after a s with
  | none => simp
  | some t => simp

/-- A step is a call, an activation, a delta cycle that wakes the thread or an advance of time, each
where it is allowed. -/
theorem step_cases {a : Action ι} (h : T.step a s = .ok ⟨⟩ s') :
    (∃ op, a = .call op ∧ s' = T.afterCall op s) ∨
    (a = .resume ∧ s.wake = .runnable ∧ s' = T.afterResume s) ∨
    (∃ d, a = .delta ∧ s.wake = .blocked d ∧ (s.notified = true ∨ d = some s.now) ∧
      s' = { s with wake := .runnable, notified := false }) ∨
    ∃ t d, a = .advance t ∧ s.wake = .blocked d ∧ s.notified = false ∧ s.now < t ∧ (∀ e ∈ d, t ≤ e) ∧
      s' = { s with now := t, wake := if d = some t then .runnable else .blocked d } := by
  rw [step_eq_ok] at h
  unfold after at h
  split at h
  · cases h
    exact .inl ⟨_, rfl, rfl⟩
  · rename_i hwake
    cases h
    exact .inr (.inl ⟨rfl, hwake, rfl⟩)
  · rename_i d hwake
    split at h
    · rename_i hdue
      cases h
      exact .inr (.inr (.inl ⟨d, rfl, hwake, hdue, rfl⟩))
    · cases h
  · rename_i t d hwake
    split at h
    · rename_i hfree
      cases h
      exact .inr (.inr (.inr ⟨t, d, rfl, hwake, hfree.1, hfree.2.1, hfree.2.2, rfl⟩))
    · cases h
  · cases h

/-- A runnable thread can be resumed. -/
theorem step_resume (h : s.wake = .runnable) : T.step .resume s = .ok ⟨⟩ (T.afterResume s) := by
  rw [step_eq_ok]
  unfold after
  rw [h]

/-- A delta cycle can wake a thread that is notified or whose timeout is now. -/
theorem step_delta {d : Option ℕ} (h : s.wake = .blocked d) (hdue : s.notified = true ∨ d = some s.now) :
    T.step .delta s = .ok ⟨⟩ { s with wake := .runnable, notified := false } := by
  rw [step_eq_ok]
  unfold after
  rw [h]
  exact if_pos hdue

/-- Time can advance to the timeout of a thread that is not notified. -/
theorem step_advance {e : ℕ} (h : s.wake = .blocked (some e)) (hn : s.notified = false) (he : s.now < e) :
    T.step (.advance e) s = .ok ⟨⟩ { s with now := e, wake := .runnable } := by
  rw [step_eq_ok]
  unfold after
  rw [h]
  dsimp only
  rw [if_pos ⟨hn, he, by simp⟩, if_pos rfl]

/-- A run of the kernel and the thread alone. -/
def Runs (T : Thread σ κ ι) (s s' : Simulation σ κ) : Prop :=
  ∃ acts : List (Action ι), (∀ a ∈ acts, ¬ a.IsCall) ∧ acts.forM T.step s = .ok ⟨⟩ s'

theorem Runs.refl : T.Runs s s := ⟨[], by simp, rfl⟩

/-- One action that is no call can be put in front of a run. -/
theorem Runs.cons {t : Simulation σ κ} {a : Action ι} (ha : ¬ a.IsCall) (h : T.step a s = .ok ⟨⟩ s')
    (h' : T.Runs s' t) : T.Runs s t := by
  obtain ⟨acts, hacts, hrun⟩ := h'
  refine ⟨a :: acts, ?_, ?_⟩
  · intro b hb
    rcases List.mem_cons.1 hb with rfl | hb
    · exact ha
    · exact hacts b hb
  · change EStateM.bind (T.step a) (fun _ => acts.forM T.step) s = _
    unfold EStateM.bind
    rw [h]
    exact hrun

/-- Two runs, one after the other, are a run. -/
theorem Runs.trans {t : Simulation σ κ} (h : T.Runs s s') (h' : T.Runs s' t) : T.Runs s t := by
  obtain ⟨acts, hacts, hrun⟩ := h
  obtain ⟨acts', hacts', hrun'⟩ := h'
  refine ⟨acts ++ acts', ?_, ?_⟩
  · intro a ha
    rcases List.mem_append.1 ha with ha | ha
    · exact hacts a ha
    · exact hacts' a ha
  · rw [forM_append_of_ok hrun]
    exact hrun'

end Thread

end Vpsim.Lib
