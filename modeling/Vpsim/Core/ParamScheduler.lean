import Vpsim.Core.Appointments
import Mathlib.Data.List.Sort

/-!
# The scheduler of parameter changes

`ParamScheduler` keeps its appointments in a `std::multiset` that is ordered by the dates alone. A new
element comes after those with the same date, so the first element is never displaced by one that is
due at the same time. An appointment names its module, which is looked up when it is applied; if no module
has this name then, or the module refuses the parameter, the exception ends the thread.
-/

namespace Vpsim.Core

open Vpsim.Lib

/-- `ParamAppointment`: the name of a module, the parameter with the addresses to set it on, and a date. -/
structure ParamAppointment (N P : Type) where
  module : N
  change : P
  date : ℕ
  date_lt : date < 2 ^ 64

namespace ParamScheduler

variable {N P : Type}

/-- `operator<`. -/
def Lt (x y : Entry (ParamAppointment N P)) : Prop := x.appointment.date < y.appointment.date

instance : DecidableRel (Lt (N := N) (P := P)) := fun _ _ => inferInstanceAs (Decidable (_ < _))

/-- The insertion of `std::multiset`, before the first greater element. -/
def insert (e : Entry (ParamAppointment N P)) (l : List (Entry (ParamAppointment N P))) :
    List (Entry (ParamAppointment N P)) :=
  l.orderedInsert Lt e

/-- The schedule of `ParamScheduler`. -/
def calendar (N P : Type) : Calendar (ParamAppointment N P) where
  date := ParamAppointment.date
  date_lt := ParamAppointment.date_lt
  insert _ := insert

/-- The order in which appointments are applied: by date, and by insertion for equal dates. -/
def Before (x y : Entry (ParamAppointment N P)) : Prop :=
  x.appointment.date < y.appointment.date ∨
    (x.appointment.date = y.appointment.date ∧ x.serial < y.serial)

variable {e x : Entry (ParamAppointment N P)} {l : List (Entry (ParamAppointment N P))}

/-- The insertion keeps the order if the new appointment is the latest. -/
theorem insert_pairwise (h : l.Pairwise Before) (hserial : ∀ x ∈ l, x.serial < e.serial) :
    (insert e l).Pairwise Before := by
  refine pairwise_orderedInsert h (fun x _ hlt => ⟨.inl hlt, fun y _ hxy => .inl ?_⟩) fun x hx hge => ?_
  · unfold Lt at hlt
    unfold Before at hxy
    omega
  · have hs := hserial x hx
    unfold Lt at hge
    unfold Before
    omega

/-- The first appointment stays the first if it is due. -/
theorem head_insert {now : ℕ} (hx : x.appointment.date ≤ now) (he : now ≤ e.appointment.date)
    (h : l.head? = some x) : (insert e l).head? = some x := by
  cases l with
  | nil => cases h
  | cons y l =>
    cases h
    unfold insert List.orderedInsert
    rw [if_neg (by unfold Lt; omega)]
    rfl

/-- The dates stay in order. -/
theorem ordered : (calendar N P).Ordered where
  perm _ e l := List.perm_orderedInsert Lt e l
  sorted _ e l _ h := by
    refine pairwise_orderedInsert h (fun x _ hlt => ⟨le_of_lt hlt, fun y _ hxy => ?_⟩) fun x _ hge => ?_
    · exact (le_of_lt hlt).trans hxy
    · exact not_lt.1 hge

/-- What every action keeps: the order of application goes on in the order of the schedule. -/
structure Inv (s : Simulation (Book (ParamAppointment N P)) (Point (ParamAppointment N P))) : Prop where
  base : (calendar N P).Inv s
  order : (s.object.handled.map Handled.applied ++ s.object.schedule).Pairwise Before
  past : ∀ h ∈ s.object.handled, h.time ≤ s.now

variable {s : Simulation (Book (ParamAppointment N P)) (Point (ParamAppointment N P))}

/-- Accepted appointments have smaller numbers than the next one. -/
theorem serial_lt (h : (calendar N P).Inv s)
    (hx : x ∈ s.object.handled.map Handled.applied ++ s.object.schedule) :
    x.serial < s.object.accepted.length := by
  have hmem := List.mem_map_of_mem (f := Entry.serial) (h.once.mem_iff.1 hx)
  rw [h.serial] at hmem
  exact List.mem_range.1 hmem

/-- A call never displaces an appointment that is due. -/
theorem call_keeps (h : (calendar N P).Inv s) (a : ParamAppointment N P) :
    (calendar N P).Inv ((calendar N P).thread.afterCall a s) := by
  refine h.call ordered a fun e _ hhead hdate => ?_
  rcases Nat.lt_or_ge s.now e.appointment.date with hlt | hdue
  · exact .inl hlt
  · exact .inr (head_insert hdue hdate hhead)

theorem Inv.call (h : Inv s) (a : ParamAppointment N P) : Inv ((calendar N P).thread.afterCall a s) := by
  refine ⟨call_keeps h.base a, ?_, ?_⟩
  · rcases Nat.lt_or_ge a.date s.now with hpassed | hdate
    · rw [Calendar.afterCall_passed hpassed]
      exact h.order
    · rw [Calendar.afterCall_accepted hdate]
      obtain ⟨hhandled, hschedule, hcross⟩ := List.pairwise_append.1 h.order
      have hnew (y : Entry (ParamAppointment N P))
          (hy : y ∈ s.object.handled.map Handled.applied ++ s.object.schedule) :=
        serial_lt h.base hy
      refine List.pairwise_append.2 ⟨hhandled, insert_pairwise hschedule fun y hy => ?_, fun y hy z hz => ?_⟩
      · exact hnew y (List.mem_append_right _ hy)
      · rcases List.mem_cons.1 ((List.perm_orderedInsert Lt _ _).mem_iff.1 hz) with rfl | hz
        · obtain ⟨k, hk, rfl⟩ := List.mem_map.1 hy
          have htime := h.base.on_time k hk
          have hpast := h.past k hk
          have hs := hnew k.applied (List.mem_append_left _ hy)
          change k.time = k.applied.appointment.date at htime
          unfold Before
          dsimp only
          omega
        · exact hcross y hy z hz
  · rcases Nat.lt_or_ge a.date s.now with hpassed | hdate
    · rw [Calendar.afterCall_passed hpassed]
      exact h.past
    · rw [Calendar.afterCall_accepted hdate]
      exact h.past

theorem Inv.resume (h : Inv s) (hwake : s.wake = .runnable) : Inv ((calendar N P).thread.afterResume s) := by
  refine ⟨h.base.resume hwake, ?_, ?_⟩
  · rw [Calendar.afterResume_object]
    rcases h.base.attend_cases with heq | ⟨e, l, -, -, hl, heq⟩
    · rw [heq]
      exact h.order
    · have horder := h.order
      rw [hl] at horder
      rw [heq]
      dsimp only
      rw [List.map_append, List.append_assoc]
      exact horder
  · rw [Calendar.afterResume_object]
    change ∀ k ∈ ((calendar N P).attend s.now s.point s.object).handled, k.time ≤ s.now
    rcases h.base.attend_cases with heq | ⟨e, l, -, -, hl, heq⟩
    · rw [heq]
      exact h.past
    · rw [heq]
      intro k hk
      rcases List.mem_append.1 hk with hk | hk
      · exact h.past k hk
      · rw [List.mem_singleton.1 hk]

theorem Inv.delta (h : Inv s) : Inv { s with wake := .runnable, notified := false } :=
  ⟨h.base.delta, h.order, h.past⟩

theorem Inv.advance (h : Inv s) {d : Option ℕ} {t : ℕ} (hwake : s.wake = .blocked d) (hn : s.notified = false)
    (hlt : s.now < t) (ht : ∀ e ∈ d, t ≤ e) :
    Inv { s with now := t, wake := if d = some t then .runnable else .blocked d } :=
  ⟨h.base.advance hwake hn ht, h.order, fun k hk => (h.past k hk).trans hlt.le⟩

/-! ## The thread -/

/-- `ParamManager` with its scheduler: the schedule, the names of the registered modules, and the modules. -/
structure ParamManager (N P G : Type) where
  book : Book (ParamAppointment N P)
  mVpsimModules : N → Bool
  modules : G

/-- What other processes call: the functions of the manager, and anything else that changes the modules. -/
inductive ManagerCall (N P G : Type) where
  | addAppointment (a : ParamAppointment N P)
  | registerModule (name : N)
  | unregisterModule (name : N)
  | setParameter (name : N) (change : P)
  | configure (f : G → G)

/-- The manager before the simulation starts, when the modules of the platform are registered. -/
def start {G : Type} (mVpsimModules : N → Bool) (modules : G) :
    Simulation (ParamManager N P G) (Option (Point (ParamAppointment N P))) :=
  Thread.start ⟨⟨[], [], []⟩, mVpsimModules, modules⟩ (some .start)

section

variable {G : Type} [DecidableEq N] (set : N → P → G → G × Bool)

/-- `ParamManager::setParameter`, and whether it throws: `at` does for a name that is not registered, and
else the module may. -/
def setParameter (name : N) (change : P) (m : ParamManager N P G) : ParamManager N P G × Bool :=
  if m.mVpsimModules name then
    let r := set name change m.modules
    ({ m with modules := r.1 }, r.2)
  else (m, true)

/-- A call of another process; an exception goes to the process. -/
def call (now : ℕ) : ManagerCall N P G → ParamManager N P G → ParamManager N P G × Bool
  | .addAppointment a, m =>
    let r := (calendar N P).addAppointment now a m.book
    ({ m with book := r.1 }, r.2)
  | .registerModule name, m => ({ m with mVpsimModules := Function.update m.mVpsimModules name true }, false)
  | .unregisterModule name, m => ({ m with mVpsimModules := Function.update m.mVpsimModules name false }, false)
  | .setParameter name change, m => ((setParameter set name change m).1, false)
  | .configure f, m => ({ m with modules := f m.modules }, false)

/-- `apply` of the appointment that the thread has waited for, if its date is reached, and whether it
throws. -/
def applyDue (now : ℕ) (p : Point (ParamAppointment N P)) (m : ParamManager N P G) : ParamManager N P G × Bool :=
  match p with
  | .holding e =>
    if e.appointment.date = now then setParameter set e.appointment.module e.appointment.change m
    else (m, false)
  | _ => (m, false)

/-- `schedule` from one wait to the next. `none` is a thread that has ended with an exception. -/
def body (now : ℕ) : Option (Point (ParamAppointment N P)) → ParamManager N P G →
    ParamManager N P G × Option (Point (ParamAppointment N P)) × Option ℕ
  | none, m => (m, none, none)
  | some p, m =>
    let r := applyDue set now p m
    if r.2 then (r.1, none, none)
    else
      let q := (calendar N P).run now p r.1.book
      ({ r.1 with book := q.1 }, some q.2.1, q.2.2)

/-- The scheduler in its manager. -/
def thread : Thread (ParamManager N P G) (Option (Point (ParamAppointment N P))) (ManagerCall N P G) :=
  ⟨body set, call set⟩

variable {set} {m : ParamManager N P G} {p : Point (ParamAppointment N P)} {now : ℕ}
  {s s' : Simulation (ParamManager N P G) (Option (Point (ParamAppointment N P)))}

omit [DecidableEq N] in
/-- Setting a parameter leaves the schedule alone. -/
theorem setParameter_book (name : N) (change : P) (m : ParamManager N P G) :
    (setParameter set name change m).1.book = m.book := by
  unfold setParameter
  split <;> rfl

omit [DecidableEq N] in
theorem applyDue_book : (applyDue set now p m).1.book = m.book := by
  unfold applyDue
  split
  · split
    · exact setParameter_book _ _ m
    · rfl
  · rfl

/-- The scheduler without its manager. -/
def plain (s : Simulation (ParamManager N P G) (Option (Point (ParamAppointment N P)))) :
    Simulation (Book (ParamAppointment N P)) (Point (ParamAppointment N P)) :=
  ⟨s.now, s.object.book, s.point.getD .start, s.wake, s.notified⟩

/-- The appointment that is due when the thread is resumed names a module that is registered, and the module
takes the parameter. -/
def Returns (set : N → P → G → G × Bool)
    (s : Simulation (ParamManager N P G) (Option (Point (ParamAppointment N P)))) :
    Action (ManagerCall N P G) → Prop
  | .resume => s.wake = .runnable → ∀ e, s.point = some (.holding e) → e.appointment.date = s.now →
      s.object.mVpsimModules e.appointment.module = true ∧
        (set e.appointment.module e.appointment.change s.object.modules).2 = false
  | _ => True

omit [DecidableEq N] in
/-- Such an appointment is applied without an exception. -/
theorem applyDue_of_returns (h : Returns set s .resume) (hwake : s.wake = .runnable) (hp : s.point = some p) :
    (applyDue set s.now p s.object).2 = false := by
  cases p with
  | start => rfl
  | idle => rfl
  | holding e =>
    unfold applyDue
    dsimp only
    split
    · rename_i hdue
      obtain ⟨hreg, hset⟩ := h hwake e hp hdue
      unfold setParameter
      rw [if_pos hreg]
      exact hset
    · rfl

/-- A call of another process is one of `addAppointment`, or does not concern the schedule. -/
theorem plain_afterCall (op : ManagerCall N P G) :
    (∃ a, op = .addAppointment a ∧ plain ((thread set).afterCall op s) = (calendar N P).thread.afterCall a (plain s)) ∨
      plain ((thread set).afterCall op s) = plain s := by
  have hquiet {m : ParamManager N P G} (hm : m.book = s.object.book) :
      plain { s with object := m, notified := s.notified || false } = plain s := by
    unfold plain
    rw [Bool.or_false, hm]
  cases op with
  | addAppointment a => exact .inl ⟨a, rfl, rfl⟩
  | registerModule name => exact .inr (hquiet rfl)
  | unregisterModule name => exact .inr (hquiet rfl)
  | setParameter name change => exact .inr (hquiet (setParameter_book name change s.object))
  | configure f => exact .inr (hquiet rfl)

/-- An activation of the thread that does not throw does what the scheduler does alone. -/
theorem plain_afterResume (hp : s.point = some p) (hthrow : (applyDue set s.now p s.object).2 = false) :
    plain ((thread set).afterResume s) = (calendar N P).thread.afterResume (plain s) ∧
      ((thread set).afterResume s).point.isSome = true := by
  have hbook : (applyDue set s.now p s.object).1.book = s.object.book := applyDue_book
  unfold Thread.afterResume plain
  simp only [thread, body, hp, hthrow, Calendar.thread, hbook]
  exact ⟨rfl, rfl⟩

/-- An activation that throws ends the thread, and leaves the schedule as it is. -/
theorem afterResume_of_throw (hp : s.point = some p) (hthrow : (applyDue set s.now p s.object).2 = true) :
    ((thread set).afterResume s).point = none ∧ ((thread set).afterResume s).object.book = s.object.book := by
  unfold Thread.afterResume
  simp only [thread, body, hp, hthrow]
  exact ⟨rfl, applyDue_book⟩

/-- What every action keeps as long as no appointment throws: the thread has not ended, and the schedule keeps
its order. -/
structure Running (s : Simulation (ParamManager N P G) (Option (Point (ParamAppointment N P)))) : Prop where
  alive : s.point.isSome = true
  inv : Inv (plain s)

omit [DecidableEq N] in
theorem running_start (mVpsimModules : N → Bool) (modules : G) :
    Running (start mVpsimModules modules : Simulation (ParamManager N P G) _) where
  alive := rfl
  inv := ⟨Calendar.inv_init, List.Pairwise.nil, by simp [plain, start, Thread.start]⟩

/-- An action that does not throw keeps the invariant. -/
theorem Running.step (h : Running s) {act : Action (ManagerCall N P G)} (hret : Returns set s act)
    (hstep : (thread set).step act s = .ok ⟨⟩ s') : Running s' := by
  rcases Thread.step_cases hstep with ⟨op, rfl, rfl⟩ | ⟨rfl, hwake, rfl⟩ | ⟨d, -, -, -, rfl⟩ |
    ⟨t, d, -, hwake, hn, hlt, ht, rfl⟩
  · refine ⟨h.alive, ?_⟩
    have hcall : (∃ a, op = .addAppointment a ∧ plain ((thread set).afterCall op s) = _) ∨
        plain ((thread set).afterCall op s) = plain s := plain_afterCall op
    rcases hcall with ⟨a, -, heq⟩ | heq
    · rw [heq]
      exact h.inv.call a
    · rw [heq]
      exact h.inv
  · obtain ⟨p, hp⟩ := Option.isSome_iff_exists.mp h.alive
    obtain ⟨heq, halive⟩ := plain_afterResume hp (applyDue_of_returns hret hwake hp)
    refine ⟨halive, ?_⟩
    rw [heq]
    exact h.inv.resume hwake
  · exact ⟨h.alive, h.inv.delta⟩
  · exact ⟨h.alive, h.inv.advance hwake hn hlt ht⟩

/-! ## Progress -/

/-- An action of the kernel, or an appointment that is added. -/
def lift : Action (ParamAppointment N P) → Action (ManagerCall N P G)
  | .call a => .call (.addAppointment a)
  | .resume => .resume
  | .delta => .delta
  | .advance t => .advance t

omit [DecidableEq N] in
theorem isCall_lift {act : Action (ParamAppointment N P)} :
    (lift act : Action (ManagerCall N P G)).IsCall ↔ act.IsCall := by
  cases act <;> rfl

/-- What the scheduler can do alone, it can do in its manager. -/
theorem step_lift {t : Simulation (Book (ParamAppointment N P)) (Point (ParamAppointment N P))}
    (h : Running s) {act : Action (ParamAppointment N P)} (hret : Returns set s (lift act))
    (hstep : (calendar N P).thread.step act (plain s) = .ok ⟨⟩ t) :
    ∃ s', (thread set).step (lift act) s = .ok ⟨⟩ s' ∧ plain s' = t := by
  rcases Thread.step_cases hstep with ⟨a, rfl, rfl⟩ | ⟨rfl, hwake, rfl⟩ | ⟨d, rfl, hwake, hdue, rfl⟩ |
    ⟨t, d, rfl, hwake, hn, hlt, ht, rfl⟩
  · exact ⟨_, Thread.step_eq_ok.mpr rfl, rfl⟩
  · obtain ⟨p, hp⟩ := Option.isSome_iff_exists.mp h.alive
    exact ⟨_, Thread.step_resume hwake, (plain_afterResume hp (applyDue_of_returns hret hwake hp)).1⟩
  · exact ⟨_, Thread.step_delta hwake hdue, rfl⟩
  · refine ⟨{ s with now := t, wake := if d = some t then .runnable else .blocked d }, ?_, rfl⟩
    change s.wake = .blocked d at hwake
    rw [Thread.step_eq_ok]
    unfold lift Thread.after
    rw [hwake]
    exact if_pos ⟨hn, hlt, ht⟩

/-- A run of the scheduler alone is one in its manager, if no appointment of it throws. -/
theorem run_lift {t : Simulation (Book (ParamAppointment N P)) (Point (ParamAppointment N P))}
    {acts : List (Action (ParamAppointment N P))} (h : Running s)
    (hret : Along (thread set).step (Returns set) s (acts.map lift))
    (hrun : acts.forM (calendar N P).thread.step (plain s) = .ok ⟨⟩ t) :
    ∃ s', (acts.map lift).forM (thread set).step s = .ok ⟨⟩ s' ∧ plain s' = t := by
  induction acts generalizing s with
  | nil =>
    cases hrun
    exact ⟨s, rfl, rfl⟩
  | cons act acts ih =>
    obtain ⟨hfirst, hrest⟩ := hret
    cases hstep : (calendar N P).thread.step act (plain s) with
    | error e u => cases (bind_of_error hstep).symm.trans hrun
    | ok _ u =>
      obtain ⟨s₁, hs₁, rfl⟩ := step_lift h hfirst hstep
      obtain ⟨s', hs', hplain⟩ := ih (h.step hfirst hs₁) (hrest s₁ hs₁) ((bind_of_ok hstep).symm.trans hrun)
      exact ⟨s', (bind_of_ok hs₁).trans hs', hplain⟩

/-- Every accepted appointment is applied once: the accepted appointments are those that have been applied and
those still scheduled, which are not overdue; an appointment is applied at its date, by date and by order of
insertion for equal dates, and it is the one that is then erased. With no more calls every appointment gets
applied, as long as none throws. -/
structure AppliedOnce (set : N → P → G → G × Bool)
    (s : Simulation (ParamManager N P G) (Option (Point (ParamAppointment N P)))) : Prop where
  nodup : s.object.book.accepted.Nodup
  once : (s.object.book.handled.map Handled.applied ++ s.object.book.schedule).Perm s.object.book.accepted
  on_time : ∀ h ∈ s.object.book.handled, h.time = h.applied.appointment.date
  erased : ∀ h ∈ s.object.book.handled, h.erased = some h.applied
  scheduled : ∀ e ∈ s.object.book.schedule, s.now ≤ e.appointment.date
  order : (s.object.book.handled.map Handled.applied).Pairwise Before
  progress : ∃ acts, (∀ a ∈ acts, ¬ a.IsCall) ∧ (Along (thread set).step (Returns set) s acts →
    ∃ s', acts.forM (thread set).step s = .ok ⟨⟩ s' ∧ s'.object.book.accepted = s.object.book.accepted ∧
      s'.object.book.schedule = [])

theorem Running.appliedOnce (h : Running s) : AppliedOnce set s := by
  have honce := h.inv.base.exactlyOnce
  refine ⟨honce.nodup, honce.once, honce.on_time, honce.erased, honce.scheduled,
    (List.pairwise_append.1 h.inv.order).1, ?_⟩
  obtain ⟨t, ⟨acts, hacts, hrun⟩, haccepted, hschedule⟩ := honce.progress
  refine ⟨acts.map lift, fun a ha => ?_, fun hret => ?_⟩
  · obtain ⟨act, hact, rfl⟩ := List.mem_map.1 ha
    exact mt isCall_lift.mp (hacts act hact)
  · obtain ⟨s', hs', rfl⟩ := run_lift h hret hrun
    exact ⟨s', hs', haccepted, hschedule⟩

/-! ## The end of the thread -/

/-- Without calls nothing changes once the thread has ended. -/
theorem ended_step {act : Action (ManagerCall N P G)} (hp : s.point = none) (hact : ¬ act.IsCall)
    (hstep : (thread set).step act s = .ok ⟨⟩ s') : s'.point = none ∧ s'.object.book = s.object.book := by
  rcases Thread.step_cases hstep with ⟨op, rfl, rfl⟩ | ⟨rfl, -, rfl⟩ | ⟨d, -, -, -, rfl⟩ |
    ⟨t, d, -, -, -, -, -, rfl⟩
  · exact absurd trivial hact
  · have hbody : (thread set).body s.now s.point s.object = (s.object, none, none) := by
      rw [hp]
      rfl
    unfold Thread.afterResume
    rw [hbody]
    exact ⟨rfl, rfl⟩
  · exact ⟨hp, rfl⟩
  · exact ⟨hp, rfl⟩

/-- The appointments that are scheduled when the thread ends are never applied. -/
theorem ended_run {acts : List (Action (ManagerCall N P G))} (hp : s.point = none)
    (hacts : ∀ a ∈ acts, ¬ a.IsCall) :
    Along (thread set).step (Returns set) s acts ∧
      ∀ s', acts.forM (thread set).step s = .ok ⟨⟩ s' → s'.object.book = s.object.book := by
  induction acts generalizing s with
  | nil =>
    refine ⟨trivial, fun s' hrun => ?_⟩
    cases hrun
    rfl
  | cons act acts ih =>
    have hrest : ∀ a ∈ acts, ¬ a.IsCall := fun a ha => hacts a (List.mem_cons_of_mem _ ha)
    refine ⟨⟨?_, fun s₁ hs₁ => ?_⟩, fun s' hrun => ?_⟩
    · cases act with
      | resume =>
        intro _ e he
        rw [hp] at he
        cases he
      | _ => trivial
    · exact (ih (ended_step hp (hacts act List.mem_cons_self) hs₁).1 hrest).1
    · cases hstep : (thread set).step act s with
      | error e u => cases (bind_of_error hstep).symm.trans hrun
      | ok _ s₁ =>
        obtain ⟨hp₁, hbook₁⟩ := ended_step hp (hacts act List.mem_cons_self) hstep
        exact ((ih hp₁ hrest).2 s' ((bind_of_ok hstep).symm.trans hrun)).trans hbook₁

/-- An appointment that throws ends the thread, and is not applied with those that are scheduled after it. -/
theorem Running.not_appliedOnce (h : Running s) {act : Action (ManagerCall N P G)} (hret : ¬ Returns set s act) :
    ∃ s', (thread set).step act s = .ok ⟨⟩ s' ∧ ¬ AppliedOnce set s' := by
  cases act with
  | resume =>
    unfold Returns at hret
    push Not at hret
    obtain ⟨hwake, e, hpoint, hdue, hfails⟩ := hret
    have hthrow : (applyDue set s.now (.holding e) s.object).2 = true := by
      unfold applyDue
      dsimp only
      rw [if_pos hdue]
      unfold setParameter
      split
      · rename_i hreg
        rw [← Bool.not_eq_false]
        exact hfails hreg
      · rfl
    obtain ⟨hended, hbook⟩ := afterResume_of_throw hpoint hthrow
    refine ⟨_, Thread.step_resume hwake, fun happlied => ?_⟩
    obtain ⟨acts, hacts, hrun⟩ := happlied.progress
    obtain ⟨hall, hsame⟩ : Along (thread set).step (Returns set) _ acts ∧ _ := ended_run hended hacts
    obtain ⟨s', hs', -, hnil⟩ := hrun hall
    rw [hsame s' hs', hbook] at hnil
    -- the appointment that is due is still scheduled
    have hplain : (plain s).point = .holding e := by
      unfold plain
      rw [hpoint]
      rfl
    rcases h.inv.base.attend_cases with heq | ⟨x, l, -, -, hl, -⟩
    · have hhandled := congrArg (fun b => b.handled.length) heq
      unfold Calendar.attend at hhandled
      rw [hplain] at hhandled
      dsimp only at hhandled
      rw [if_pos (show (calendar N P).dateOf e = (plain s).now from hdue)] at hhandled
      simp at hhandled
    · rw [show (plain s).object.schedule = s.object.book.schedule from rfl, hnil] at hl
      cases hl
  | call op => exact absurd trivial hret
  | delta => exact absurd trivial hret
  | advance t => exact absurd trivial hret

variable (set)

/-- In every state of a run each accepted appointment is applied exactly once, at its date, by date and by order
of insertion for equal dates, and the thread erases the appointments that it has applied, exactly if whenever
an appointment is due its module is registered and takes the parameter. -/
theorem appointments_applied_once_iff (mVpsimModules : N → Bool) (modules : G)
    (acts : List (Action (ManagerCall N P G))) :
    Throughout (thread set).step (AppliedOnce set) (start mVpsimModules modules) acts ↔
      Along (thread set).step (Returns set) (start mVpsimModules modules) acts := by
  refine throughout_iff_along (fun s (h : Running s) => h.appliedOnce) acts ?_ ?_
    (running_start mVpsimModules modules)
  · intro s act _ s' h hret hstep
    exact h.step hret hstep
  · intro s act _ h hret
    exact h.not_appliedOnce hret

end

theorem ten_lt_pow : 10 < 2 ^ 64 := by decide

theorem twenty_lt_pow : 20 < 2 ^ 64 := by decide

/-- Modules that take every parameter and count them. -/
def counting (_ : Bool) (_ : ℕ) (n : ℕ) : ℕ × Bool := (n + 1, false)

/-- Two appointments for the same date, the second added when the first is due, are both applied, in the order
of insertion. -/
example : ((endState (List.forM [.resume, .call (.addAppointment ⟨true, 0, 10, ten_lt_pow⟩), .delta, .resume,
    .advance 10, .call (.addAppointment ⟨true, 1, 10, ten_lt_pow⟩), .resume, .delta, .resume]
      (thread counting).step (start (fun name => name) 0))).object.book.handled.map
        fun h => (h.applied.appointment.change, h.time)) = [(0, 10), (1, 10)] := by
  decide +kernel

/-- An appointment for a name that no module has, and one for the module that is registered. -/
def unknownName : List (Action (ManagerCall Bool ℕ ℕ)) :=
  [.resume, .call (.addAppointment ⟨false, 0, 10, ten_lt_pow⟩),
    .call (.addAppointment ⟨true, 1, 20, twenty_lt_pow⟩), .delta, .resume, .advance 10, .resume, .advance 30]

/-- The first ends the thread, and at time 30 the second has not been applied either. -/
theorem appointments_lost :
    returns (unknownName.forM (thread counting).step (start (fun name => name) 0)) = true ∧
      ¬ Throughout (thread counting).step (AppliedOnce counting) (start (fun name => name) 0) unknownName := by
  have hreturns : returns (unknownName.forM (thread counting).step (start (fun name => name) 0)) = true := by
    decide +kernel
  refine ⟨hreturns, fun hall => ?_⟩
  have happlied := hall unknownName [] _ (List.append_nil _).symm (eq_ok_endState hreturns)
  have hlate : ¬ ∀ e ∈ (endState (unknownName.forM (thread counting).step
      (start (fun name => name) 0))).object.book.schedule,
        (endState (unknownName.forM (thread counting).step (start (fun name => name) 0))).now ≤
          e.appointment.date := by
    decide +kernel
  exact hlate happlied.scheduled

end ParamScheduler

end Vpsim.Core
