import Vpsim.Lib.Cooperative
import Mathlib.Data.List.Perm.Basic
import Mathlib.Data.List.Range
import Mathlib.Data.List.Nodup
import Mathlib.Data.List.Sort
import Mathlib.Algebra.Group.Nat.Even

/-!
# Schedules of appointments

`ParamScheduler` and `LoggerScheduler` are the same thread over two kinds of appointments: it waits for
the first appointment of its schedule or for a new one, and applies the appointment it has waited for
if its date is reached. They differ in where `addAppointment` inserts. An appointment is known by the
number of appointments that were accepted before it. Dates are 64-bit values.
-/

namespace Vpsim.Core

open Vpsim.Lib

/-- An accepted appointment. -/
structure Entry (α : Type) where
  serial : ℕ
  appointment : α
deriving DecidableEq

/-- What the thread has applied, when, and which appointment it has then erased. Erasing from an empty
schedule is undefined. -/
structure Handled (α : Type) where
  applied : Entry α
  time : ℕ
  erased : Option (Entry α)
deriving DecidableEq

/-- The schedule, and what has become of the appointments so far. -/
structure Book (α : Type) where
  schedule : List (Entry α)
  accepted : List (Entry α)
  handled : List (Handled α)

/-- Where the thread waits: it has not run yet, its schedule was empty, or for an appointment, of which
it has a copy or a reference. -/
inductive Point (α : Type)
  | start
  | idle
  | holding (next : Entry α)

/-- An insertion keeps an order that passes from the element after the new one to those behind it. -/
theorem pairwise_orderedInsert {β : Type} {r : β → β → Prop} [DecidableRel r] {R : β → β → Prop} {e : β}
    {l : List β} (h : l.Pairwise R) (hbefore : ∀ x ∈ l, r e x → R e x ∧ ∀ y ∈ l, R x y → R e y)
    (hafter : ∀ x ∈ l, ¬ r e x → R x e) : (l.orderedInsert r e).Pairwise R := by
  induction l with
  | nil => exact List.pairwise_singleton _ _
  | cons x l ih =>
    obtain ⟨hx, hl⟩ := List.pairwise_cons.1 h
    unfold List.orderedInsert
    split
    · rename_i hr
      obtain ⟨hex, hpass⟩ := hbefore x List.mem_cons_self hr
      refine List.pairwise_cons.2 ⟨fun y hy => ?_, h⟩
      rcases List.mem_cons.1 hy with rfl | hy
      · exact hex
      · exact hpass y (List.mem_cons_of_mem x hy) (hx y hy)
    · rename_i hr
      refine List.pairwise_cons.2 ⟨fun y hy => ?_, ih hl ?_ ?_⟩
      · rcases List.mem_cons.1 ((List.perm_orderedInsert r e l).mem_iff.1 hy) with rfl | hy
        · exact hafter x List.mem_cons_self hr
        · exact hx y hy
      · intro y hy hey
        obtain ⟨h₁, h₂⟩ := hbefore y (List.mem_cons_of_mem x hy) hey
        exact ⟨h₁, fun z hz => h₂ z (List.mem_cons_of_mem x hz)⟩
      · intro y hy
        exact hafter y (List.mem_cons_of_mem x hy)

/-- `sc_time` values are subtracted as 64-bit numbers. -/
def timeTo (date now : ℕ) : ℕ := (date + (2 ^ 64 - now)) % 2 ^ 64

/-- A kind of appointments, and where a schedule takes a new one. -/
structure Calendar (α : Type) where
  date : α → ℕ
  date_lt : ∀ a, date a < 2 ^ 64
  insert : (now : ℕ) → Entry α → List (Entry α) → List (Entry α)

namespace Calendar

variable {α : Type} (C : Calendar α)

/-- The date of an accepted appointment. -/
def dateOf (e : Entry α) : ℕ := C.date e.appointment

/-- `addAppointment`, which ignores a passed appointment and otherwise notifies the thread. -/
def addAppointment (now : ℕ) (a : α) (b : Book α) : Book α × Bool :=
  if C.date a < now then (b, false)
  else
    let e : Entry α := ⟨b.accepted.length, a⟩
    ({ b with schedule := C.insert now e b.schedule, accepted := b.accepted ++ [e] }, true)

/-- What the thread does after its wait: the appointment it has waited for is applied if its date is
reached, and the first of the schedule is erased. -/
def attend (now : ℕ) (p : Point α) (b : Book α) : Book α :=
  match p with
  | .holding e =>
    if C.dateOf e = now then
      { b with
        schedule := b.schedule.tail
        handled := b.handled ++ [⟨e, now, b.schedule.head?⟩] }
    else b
  | _ => b

/-- `schedule` from one wait to the next. -/
def run (now : ℕ) (p : Point α) (b : Book α) : Book α × Point α × Option ℕ :=
  let b := C.attend now p b
  match b.schedule with
  | [] => (b, .idle, none)
  | e :: _ => (b, .holding e, some (timeTo (C.dateOf e) now))

/-- The scheduler. -/
def thread : Thread (Book α) (Point α) α := ⟨C.run, C.addAppointment⟩

/-- The scheduler before the simulation starts. -/
def init : Simulation (Book α) (Point α) := Thread.start ⟨[], [], []⟩ .start

/-- Every appointment is handled once and on time: the accepted appointments are those that have been
applied and those still scheduled, which are not overdue; an appointment is applied at its date, and it
is the one that is then erased. With no more calls every appointment gets applied. -/
structure ExactlyOnce (s : Simulation (Book α) (Point α)) : Prop where
  nodup : s.object.accepted.Nodup
  once : (s.object.handled.map Handled.applied ++ s.object.schedule).Perm s.object.accepted
  on_time : ∀ h ∈ s.object.handled, h.time = C.dateOf h.applied
  erased : ∀ h ∈ s.object.handled, h.erased = some h.applied
  scheduled : ∀ e ∈ s.object.schedule, s.now ≤ C.dateOf e
  progress : ∃ s', C.thread.Runs s s' ∧ s'.object.accepted = s.object.accepted ∧
    s'.object.schedule = []

/-- The insertion adds the appointment and keeps the dates in order, as long as none is passed. -/
structure Ordered : Prop where
  perm : ∀ now e l, (C.insert now e l).Perm (e :: l)
  sorted : ∀ now e l, (∀ x ∈ e :: l, now ≤ C.dateOf x) →
    l.Pairwise (fun x y => C.dateOf x ≤ C.dateOf y) →
      (C.insert now e l).Pairwise fun x y => C.dateOf x ≤ C.dateOf y

/-- The thread waits for the first appointment of the schedule. Otherwise it is about to look again, and
the appointment that it has waited for is not due. -/
def Attentive (s : Simulation (Book α) (Point α)) : Point α → Prop
  | .start => s.wake = .runnable
  | .idle => s.object.schedule = [] ∨ s.notified = true ∨ s.wake = .runnable
  | .holding e => (s.object.schedule.head? = some e ∨
      (s.now < C.dateOf e ∧ (s.notified = true ∨ s.wake = .runnable))) ∧
    ∀ d, s.wake = .blocked d → d = some (C.dateOf e)

/-- What every action keeps. -/
structure Inv (s : Simulation (Book α) (Point α)) : Prop where
  serial : s.object.accepted.map Entry.serial = List.range s.object.accepted.length
  once : (s.object.handled.map Handled.applied ++ s.object.schedule).Perm s.object.accepted
  on_time : ∀ h ∈ s.object.handled, h.time = C.dateOf h.applied
  erased : ∀ h ∈ s.object.handled, h.erased = some h.applied
  scheduled : ∀ e ∈ s.object.schedule, s.now ≤ C.dateOf e
  sorted : s.object.schedule.Pairwise fun x y => C.dateOf x ≤ C.dateOf y
  attentive : C.Attentive s s.point

variable {C} {s : Simulation (Book α) (Point α)}

theorem inv_init : C.Inv init where
  serial := rfl
  once := List.Perm.refl _
  on_time h hh := by cases hh
  erased h hh := by cases hh
  scheduled e he := by cases he
  sorted := List.Pairwise.nil
  attentive := rfl

/-- A date that is not passed is at its distance from now. -/
theorem add_timeTo {date now : ℕ} (h : now ≤ date) (hdate : date < 2 ^ 64) : now + timeTo date now = date := by
  unfold timeTo
  omega

/-- A passed appointment is ignored. -/
theorem afterCall_passed {a : α} (h : C.date a < s.now) : C.thread.afterCall a s = s := by
  unfold Thread.afterCall thread addAppointment
  dsimp only
  rw [if_pos h, Bool.or_false]

/-- Any other appointment is accepted. -/
theorem afterCall_accepted {a : α} (h : s.now ≤ C.date a) :
    C.thread.afterCall a s = { s with
      object := { s.object with
        schedule := C.insert s.now ⟨s.object.accepted.length, a⟩ s.object.schedule
        accepted := s.object.accepted ++ [⟨s.object.accepted.length, a⟩] }
      notified := true } := by
  unfold Thread.afterCall thread addAppointment
  dsimp only
  rw [if_neg (Nat.not_lt.2 h), Bool.or_true]

/-- A call keeps the invariant unless the new appointment takes the place of one that is due. -/
theorem Inv.call (hC : C.Ordered) (h : C.Inv s) (a : α)
    (hfirst : ∀ e, s.point = .holding e → s.object.schedule.head? = some e → s.now ≤ C.date a →
      s.now < C.dateOf e ∨
        (C.insert s.now ⟨s.object.accepted.length, a⟩ s.object.schedule).head? = some e) :
    C.Inv (C.thread.afterCall a s) := by
  rcases Nat.lt_or_ge (C.date a) s.now with hpassed | hdate
  · rw [afterCall_passed hpassed]
    exact h
  rw [afterCall_accepted hdate]
  generalize hnew : (⟨s.object.accepted.length, a⟩ : Entry α) = new at hfirst ⊢
  have hdue : ∀ x ∈ new :: s.object.schedule, s.now ≤ C.dateOf x := by
    intro x hx
    rcases List.mem_cons.1 hx with rfl | hx
    · rw [← hnew]
      exact hdate
    · exact h.scheduled x hx
  have hperm := hC.perm s.now new s.object.schedule
  refine ⟨?_, ?_, h.on_time, h.erased, ?_, hC.sorted _ _ _ hdue h.sorted, ?_⟩
  · dsimp only
    rw [List.map_append, h.serial, List.length_append, ← hnew]
    exact List.range_succ.symm
  · refine (List.Perm.append_left _ hperm).trans (List.perm_middle.trans ?_)
    exact (List.Perm.cons new h.once).trans (List.perm_append_singleton new _).symm
  · intro e he
    exact hdue e (hperm.mem_iff.1 he)
  · have hatt := h.attentive
    cases hpoint : s.point with
    | start =>
      rw [hpoint] at hatt
      exact hatt
    | idle => exact .inr (.inl rfl)
    | holding e =>
      rw [hpoint] at hatt
      obtain ⟨hhead | ⟨hlt, -⟩, hd⟩ := hatt
      · rcases hfirst e hpoint hhead hdate with hlt | hkept
        · exact ⟨.inr ⟨hlt, .inl rfl⟩, hd⟩
        · exact ⟨.inl hkept, hd⟩
      · exact ⟨.inr ⟨hlt, .inl rfl⟩, hd⟩

/-- What the thread finds after its wait: the appointment that is due is the first, and it is applied. -/
theorem Inv.attend_cases (h : C.Inv s) :
    C.attend s.now s.point s.object = s.object ∨
      ∃ e l, s.point = .holding e ∧ C.dateOf e = s.now ∧ s.object.schedule = e :: l ∧
        C.attend s.now s.point s.object =
          { s.object with schedule := l, handled := s.object.handled ++ [⟨e, s.now, some e⟩] } := by
  have hatt := h.attentive
  cases hpoint : s.point with
  | start => exact .inl rfl
  | idle => exact .inl rfl
  | holding e =>
    rw [hpoint] at hatt
    by_cases hdue : C.dateOf e = s.now
    · right
      obtain ⟨hhead | ⟨hlt, -⟩, -⟩ := hatt
      · obtain ⟨l, hl⟩ : ∃ l, s.object.schedule = e :: l := by
          cases hs : s.object.schedule with
          | nil =>
            rw [hs] at hhead
            cases hhead
          | cons x l =>
            rw [hs] at hhead
            cases hhead
            exact ⟨l, rfl⟩
        refine ⟨e, l, rfl, hdue, hl, ?_⟩
        unfold attend
        dsimp only
        rw [if_pos hdue, hl]
        rfl
      · exact absurd hdue hlt.ne'
    · left
      unfold attend
      dsimp only
      rw [if_neg hdue]

/-- A thread that has attended to its wait leaves a book that meets the invariant. -/
theorem Inv.attend (h : C.Inv s) (hwake : s.wake = .runnable) :
    C.Inv { s with object := C.attend s.now s.point s.object, point := .start } := by
  rcases h.attend_cases with heq | ⟨e, l, -, hdue, hl, heq⟩
  · rw [heq]
    exact ⟨h.serial, h.once, h.on_time, h.erased, h.scheduled, h.sorted, hwake⟩
  · rw [heq]
    have honce := h.once
    have hsorted := h.sorted
    rw [hl] at honce hsorted
    refine ⟨h.serial, ?_, ?_, ?_, ?_, (List.pairwise_cons.1 hsorted).2, hwake⟩
    · dsimp only
      rw [List.map_append, List.append_assoc]
      exact honce
    · intro x hx
      rcases List.mem_append.1 hx with hx | hx
      · exact h.on_time x hx
      · rw [List.mem_singleton.1 hx]
        exact hdue.symm
    · intro x hx
      rcases List.mem_append.1 hx with hx | hx
      · exact h.erased x hx
      · rw [List.mem_singleton.1 hx]
    · intro x hx
      refine h.scheduled x ?_
      rw [hl]
      exact List.mem_cons_of_mem e hx

/-- An activation of the thread attends to its wait, and then waits for the first appointment if there is
one. -/
theorem afterResume_eq : C.thread.afterResume s =
    match (C.attend s.now s.point s.object).schedule with
    | [] => { s with object := C.attend s.now s.point s.object, point := .idle, wake := .blocked none }
    | e :: _ =>
      { s with
        object := C.attend s.now s.point s.object
        point := .holding e
        wake := .blocked (some (s.now + timeTo (C.dateOf e) s.now)) } := by
  unfold Thread.afterResume thread run
  dsimp only
  cases (C.attend s.now s.point s.object).schedule with
  | nil => rfl
  | cons e l => rfl

/-- An activation of the thread keeps the invariant. -/
theorem Inv.resume (h : C.Inv s) (hwake : s.wake = .runnable) : C.Inv (C.thread.afterResume s) := by
  have hb := h.attend hwake
  rw [afterResume_eq]
  cases hs : (C.attend s.now s.point s.object).schedule with
  | nil => exact ⟨hb.serial, hb.once, hb.on_time, hb.erased, hb.scheduled, hb.sorted, .inl hs⟩
  | cons e l =>
    have he : s.now ≤ C.dateOf e := by
      refine hb.scheduled e ?_
      change e ∈ (C.attend s.now s.point s.object).schedule
      rw [hs]
      exact List.mem_cons_self
    refine ⟨hb.serial, hb.once, hb.on_time, hb.erased, hb.scheduled, hb.sorted, .inl ?_, fun d hd => ?_⟩
    · change (C.attend s.now s.point s.object).schedule.head? = some e
      rw [hs]
      rfl
    · cases hd
      rw [add_timeTo he (C.date_lt _)]

/-- A delta cycle keeps the invariant. -/
theorem Inv.delta (h : C.Inv s) : C.Inv { s with wake := .runnable, notified := false } := by
  refine ⟨h.serial, h.once, h.on_time, h.erased, h.scheduled, h.sorted, ?_⟩
  have hatt := h.attentive
  cases hpoint : s.point with
  | start => exact rfl
  | idle => exact .inr (.inr rfl)
  | holding e =>
    rw [hpoint] at hatt
    refine ⟨?_, fun d hd => by cases hd⟩
    obtain ⟨hhead | ⟨hlt, -⟩, -⟩ := hatt
    · exact .inl hhead
    · exact .inr ⟨hlt, .inr rfl⟩

/-- The schedule of a thread that waits without a notification: it waits for the first appointment. -/
theorem Inv.blocked (h : C.Inv s) {d : Option ℕ} (hwake : s.wake = .blocked d) (hn : s.notified = false) :
    (s.point = .idle ∧ s.object.schedule = []) ∨
      ∃ e l, s.point = .holding e ∧ s.object.schedule = e :: l ∧ d = some (C.dateOf e) := by
  have hatt := h.attentive
  cases hpoint : s.point with
  | start =>
    rw [hpoint, Attentive, hwake] at hatt
    cases hatt
  | idle =>
    rw [hpoint, Attentive, hn, hwake] at hatt
    exact .inl ⟨rfl, by simpa using hatt⟩
  | holding e =>
    rw [hpoint, Attentive, hn, hwake] at hatt
    obtain ⟨hhead, hd⟩ := hatt
    right
    cases hs : s.object.schedule with
    | nil =>
      rw [hs] at hhead
      simp at hhead
    | cons x l =>
      rw [hs] at hhead
      obtain rfl : x = e := by simpa using hhead
      exact ⟨x, l, rfl, rfl, hd d rfl⟩

/-- Time that advances keeps the invariant. -/
theorem Inv.advance (h : C.Inv s) {d : Option ℕ} {t : ℕ} (hwake : s.wake = .blocked d)
    (hn : s.notified = false) (ht : ∀ e ∈ d, t ≤ e) :
    C.Inv { s with now := t, wake := if d = some t then .runnable else .blocked d } := by
  rcases h.blocked hwake hn with ⟨hpoint, hs⟩ | ⟨e, l, hpoint, hs, hd⟩
  · refine ⟨h.serial, h.once, h.on_time, h.erased, ?_, h.sorted, ?_⟩
    · dsimp only
      rw [hs]
      simp
    · rw [hpoint]
      exact .inl hs
  · have hsorted := h.sorted
    rw [hs, List.pairwise_cons] at hsorted
    have hte : t ≤ C.dateOf e := ht _ hd
    refine ⟨h.serial, h.once, h.on_time, h.erased, fun x hx => ?_, h.sorted, ?_⟩
    · dsimp only at hx ⊢
      rw [hs] at hx
      rcases List.mem_cons.1 hx with rfl | hx
      · exact hte
      · exact hte.trans (hsorted.1 x hx)
    · rw [hpoint]
      refine ⟨.inl (by dsimp only; rw [hs]; rfl), fun d' hd' => ?_⟩
      dsimp only at hd'
      split at hd'
      · cases hd'
      · cases hd'
        exact hd

/-- Every action but a call keeps the invariant, and a call does under a condition. -/
theorem Inv.step (hC : C.Ordered) (h : C.Inv s) {act : Action α}
    (hcall : ∀ a, act = .call a → ∀ e, s.point = .holding e → s.object.schedule.head? = some e →
      s.now ≤ C.date a → s.now < C.dateOf e ∨
        (C.insert s.now ⟨s.object.accepted.length, a⟩ s.object.schedule).head? = some e) :
    wp (C.thread.step act) (fun _ => C.Inv) (fun _ _ => True) s := by
  unfold wp
  cases hrun : C.thread.step act s with
  | error e t => exact trivial
  | ok u t =>
    rcases Thread.step_cases hrun with ⟨a, rfl, rfl⟩ | ⟨-, hwake, rfl⟩ | ⟨d, -, -, -, rfl⟩ |
      ⟨t, d, -, hwake, hn, -, ht, rfl⟩
    · exact h.call hC a (hcall a rfl)
    · exact h.resume hwake
    · exact h.delta
    · exact h.advance hwake hn ht

/-! ## Progress -/

/-- An activation leaves the book as `attend` does. -/
theorem afterResume_object : (C.thread.afterResume s).object = C.attend s.now s.point s.object := by
  rw [afterResume_eq]
  split
  · rfl
  · rfl

theorem afterResume_wake : ∃ d, (C.thread.afterResume s).wake = .blocked d := ⟨_, rfl⟩

/-- Attending accepts nothing, and the schedule does not grow. -/
theorem attend_le (now : ℕ) (p : Point α) (b : Book α) : (C.attend now p b).accepted = b.accepted ∧
    (C.attend now p b).schedule.length ≤ b.schedule.length := by
  unfold attend
  cases p with
  | start => exact ⟨rfl, le_rfl⟩
  | idle => exact ⟨rfl, le_rfl⟩
  | holding e =>
    dsimp only
    split
    · exact ⟨rfl, by simp⟩
    · exact ⟨rfl, le_rfl⟩

/-- The thread runs to a wait. -/
theorem Inv.exists_blocked (h : C.Inv s) : ∃ s', C.thread.Runs s s' ∧ C.Inv s' ∧
    (∃ d, s'.wake = .blocked d) ∧ s'.object.accepted = s.object.accepted ∧
    s'.object.schedule.length ≤ s.object.schedule.length := by
  cases hwake : s.wake with
  | blocked d => exact ⟨s, .refl, h, ⟨d, hwake⟩, rfl, le_rfl⟩
  | runnable =>
    refine ⟨_, .cons (by simp [Action.IsCall]) (Thread.step_resume hwake) .refl, h.resume hwake,
      afterResume_wake, ?_⟩
    rw [afterResume_object]
    exact attend_le _ _ _

/-- The thread runs to a wait without a notification. -/
theorem Inv.exists_settled (h : C.Inv s) : ∃ s', C.thread.Runs s s' ∧ C.Inv s' ∧
    (∃ d, s'.wake = .blocked d) ∧ s'.notified = false ∧ s'.object.accepted = s.object.accepted ∧
    s'.object.schedule.length ≤ s.object.schedule.length := by
  obtain ⟨s₁, hrun₁, h₁, ⟨d, hwake⟩, hacc₁, hlen₁⟩ := h.exists_blocked
  cases hn : s₁.notified with
  | false => exact ⟨s₁, hrun₁, h₁, ⟨d, hwake⟩, hn, hacc₁, hlen₁⟩
  | true =>
    have hwoken := h₁.delta
    have hle := attend_le (C := C) s₁.now s₁.point s₁.object
    refine ⟨_, hrun₁.trans (.cons (by simp [Action.IsCall]) (Thread.step_delta hwake (.inl hn))
      (.cons (by simp [Action.IsCall]) (Thread.step_resume rfl) .refl)), hwoken.resume rfl,
      afterResume_wake, rfl, ?_⟩
    rw [afterResume_object]
    exact ⟨hle.1.trans hacc₁, hle.2.trans hlen₁⟩

/-- The thread applies the first appointment of its schedule, at the latest when time has advanced to its
date. -/
theorem Inv.exists_applied (h : C.Inv s) {d : Option ℕ} (hwake : s.wake = .blocked d)
    (hn : s.notified = false) (hs : s.object.schedule ≠ []) : ∃ s', C.thread.Runs s s' ∧ C.Inv s' ∧
    s'.object.accepted = s.object.accepted ∧ s'.object.schedule.length < s.object.schedule.length := by
  rcases h.blocked hwake hn with ⟨-, hnil⟩ | ⟨e, l, hpoint, hl, rfl⟩
  · exact absurd hnil hs
  · have hdue : ∃ s₁, C.thread.Runs s s₁ ∧ C.Inv s₁ ∧ s₁.wake = .runnable ∧ s₁.point = .holding e ∧
        s₁.object = s.object ∧ s₁.now = C.dateOf e := by
      rcases (h.scheduled e (by rw [hl]; exact List.mem_cons_self)).eq_or_lt with hnow | hlt
      · refine ⟨_, .cons (by simp [Action.IsCall]) (Thread.step_delta hwake (.inr ?_)) .refl, h.delta, rfl,
          hpoint, rfl, hnow⟩
        rw [hnow]
      · have hadv := h.advance (t := C.dateOf e) hwake hn (by simp)
        rw [if_pos rfl] at hadv
        exact ⟨_, .cons (by simp [Action.IsCall]) (Thread.step_advance hwake hn hlt) .refl, hadv, rfl,
          hpoint, rfl, rfl⟩
    obtain ⟨s₁, hrun₁, h₁, hwake₁, hpoint₁, hobj₁, hnow₁⟩ := hdue
    have hattend : (C.attend s₁.now s₁.point s₁.object).schedule = l := by
      rw [hpoint₁, hobj₁]
      unfold Calendar.attend
      dsimp only
      rw [if_pos hnow₁.symm, hl]
      rfl
    refine ⟨_, hrun₁.trans (.cons (by simp [Action.IsCall]) (Thread.step_resume hwake₁) .refl),
      h₁.resume hwake₁, ?_, ?_⟩
    · rw [afterResume_object, (attend_le _ _ _).1, hobj₁]
    · rw [afterResume_object, hattend, hl]
      exact Nat.lt_succ_self _

/-- Every appointment is applied in the end. -/
theorem Inv.progress (h : C.Inv s) : ∃ s', C.thread.Runs s s' ∧
    s'.object.accepted = s.object.accepted ∧ s'.object.schedule = [] := by
  induction hlen : s.object.schedule.length using Nat.strong_induction_on generalizing s with
  | _ n ih =>
    obtain ⟨s₁, hrun₁, h₁, ⟨d, hwake⟩, hn, hacc₁, hlen₁⟩ := h.exists_settled
    by_cases hs : s₁.object.schedule = []
    · exact ⟨s₁, hrun₁, hacc₁, hs⟩
    · obtain ⟨s₂, hrun₂, h₂, hacc₂, hlen₂⟩ := h₁.exists_applied hwake hn hs
      obtain ⟨s₃, hrun₃, hacc₃, hnil⟩ := ih _ (by omega) h₂ rfl
      exact ⟨s₃, hrun₁.trans (hrun₂.trans hrun₃), hacc₃.trans (hacc₂.trans hacc₁), hnil⟩

/-- The invariant gives what the calendar promises. -/
theorem Inv.exactlyOnce (h : C.Inv s) : C.ExactlyOnce s where
  nodup := by
    refine List.Nodup.of_map Entry.serial ?_
    rw [h.serial]
    exact List.nodup_range
  once := h.once
  on_time := h.on_time
  erased := h.erased
  scheduled := h.scheduled
  progress := h.progress

end Calendar

end Vpsim.Core
