import Vpsim.Core.Appointments

/-!
# The scheduler of debug levels

`LoggerScheduler` keeps its appointments in a `std::list` and inserts a new one before those with the
same date. The thread waits with a copy of the first appointment, applies the copy and removes whatever
is the first then: an appointment that is added at the very time the first one is due takes its place,
and is removed without having been applied.
-/

namespace Vpsim.Core

open Vpsim.Lib

/-- `Appointment`: a date, and the debug level that `apply` gives to a logger. -/
structure Appointment (P : Type) where
  change : P
  date : ℕ
  date_lt : date < 2 ^ 64

namespace LoggerScheduler

variable {P : Type}

/-- The test that ends the search of `addAppointment` for the place of `x`, at the element `y`. -/
def NotBefore (now : ℕ) (x y : Entry (Appointment P)) : Prop :=
  ¬ timeTo y.appointment.date now < timeTo x.appointment.date now

instance (now : ℕ) : DecidableRel (NotBefore (P := P) now) := fun _ _ => inferInstanceAs (Decidable (¬ _))

/-- The insertion of `addAppointment`. -/
def insert (now : ℕ) (e : Entry (Appointment P)) (l : List (Entry (Appointment P))) :
    List (Entry (Appointment P)) :=
  l.orderedInsert (NotBefore now) e

/-- The schedule of `LoggerScheduler`. -/
def calendar (P : Type) : Calendar (Appointment P) where
  date := Appointment.date
  date_lt := Appointment.date_lt
  insert := insert

/-- Appointments that are not passed are compared by their dates. -/
theorem notBefore_iff {now : ℕ} {x y : Entry (Appointment P)} (hx : now ≤ x.appointment.date)
    (hy : now ≤ y.appointment.date) : NotBefore now x y ↔ x.appointment.date ≤ y.appointment.date := by
  have hxd := Calendar.add_timeTo hx x.appointment.date_lt
  have hyd := Calendar.add_timeTo hy y.appointment.date_lt
  unfold NotBefore
  omega

/-- The dates stay in order. -/
theorem ordered : (calendar P).Ordered where
  perm now e l := List.perm_orderedInsert (NotBefore now) e l
  sorted now e l hdue h := by
    have he := hdue e List.mem_cons_self
    refine pairwise_orderedInsert h (fun x hx hle => ?_) fun x hx hlt => ?_
    · have hex := (notBefore_iff he (hdue x (List.mem_cons_of_mem e hx))).1 hle
      exact ⟨hex, fun y _ hxy => hex.trans hxy⟩
    · have hex := mt (notBefore_iff he (hdue x (List.mem_cons_of_mem e hx))).2 hlt
      exact (not_le.1 hex).le

/-- The thread waits for an appointment that is due. -/
def Due (now : ℕ) : Point (Appointment P) → Prop
  | .holding e => e.appointment.date = now
  | _ => False

/-- The call does not add an appointment for now while the thread waits for one that is due. -/
def Punctual (s : Simulation (Book (Appointment P)) (Point (Appointment P))) :
    Action (Appointment P) → Prop
  | .call a => Due s.now s.point → a.date ≠ s.now
  | _ => True

instance (now : ℕ) (p : Point (Appointment P)) : Decidable (Due now p) := by
  cases p <;> unfold Due <;> infer_instance

instance (s : Simulation (Book (Appointment P)) (Point (Appointment P))) (act : Action (Appointment P)) :
    Decidable (Punctual s act) := by
  cases act <;> unfold Punctual <;> infer_instance

variable {s : Simulation (Book (Appointment P)) (Point (Appointment P))}

/-- A later appointment does not displace one that is due. -/
theorem head_insert {now : ℕ} {e x : Entry (Appointment P)} {l : List (Entry (Appointment P))}
    (hx : x.appointment.date = now) (he : now < e.appointment.date) (h : l.head? = some x) :
    (insert now e l).head? = some x := by
  cases l with
  | nil => cases h
  | cons y l =>
    cases h
    have hlt : ¬ NotBefore now e x := by
      rw [notBefore_iff he.le hx.ge]
      omega
    unfold insert List.orderedInsert
    rw [if_neg hlt]
    rfl

/-- In every run whose calls are punctual each accepted appointment is applied exactly once, at its date,
and none is removed without having been applied. -/
theorem appointments_applied_once_of_punctual {acts : List (Action (Appointment P))}
    (hacts : Along (calendar P).thread.step Punctual Calendar.init acts)
    {s : Simulation (Book (Appointment P)) (Point (Appointment P))}
    (hrun : acts.forM (calendar P).thread.step Calendar.init = .ok ⟨⟩ s) : (calendar P).ExactlyOnce s := by
  have hstep (t : Simulation (Book (Appointment P)) (Point (Appointment P)))
      (act : Action (Appointment P)) (_ : act ∈ acts) (h : (calendar P).Inv t) (hact : Punctual t act) :
      wp ((calendar P).thread.step act) (fun _ => (calendar P).Inv) (fun _ _ => True) t := by
    refine h.step ordered fun a ha e hpoint hhead hdate => ?_
    rw [ha] at hact
    have hmem : e ∈ t.object.schedule := List.mem_of_mem_head? hhead
    rcases (h.scheduled e hmem).eq_or_lt with hdue | hlt
    · have hne : a.date ≠ t.now := by
        refine hact ?_
        rw [hpoint]
        exact hdue.symm
      exact .inr (head_insert hdue.symm (lt_of_le_of_ne hdate hne.symm) hhead)
    · exact .inl hlt
  exact ((hacts.wp_forM hstep Calendar.inv_init).of_ok hrun).exactlyOnce

/-- Two appointments for the same date, the second added before the first is due. -/
def earlyCall : List (Action (Appointment ℕ)) :=
  [.resume, .call ⟨0, 10, by decide⟩, .delta, .resume, .call ⟨1, 10, by decide⟩, .delta, .resume,
    .advance 10, .resume, .delta, .resume]

/-- Both are applied. -/
theorem appointments_applied_once_of_punctual_earlyCall :
    (calendar ℕ).ExactlyOnce (endState (earlyCall.forM (calendar ℕ).thread.step Calendar.init)) := by
  refine appointments_applied_once_of_punctual ?_ (eq_ok_endState (by decide +kernel))
  iterate 11 refine .cons (by decide +kernel) ?_
  trivial

/-- The second appointment is added when the first is due, and the thread applies the first twice. -/
theorem appointment_dropped : ¬ ∀ (acts : List (Action (Appointment ℕ)))
    (s : Simulation (Book (Appointment ℕ)) (Point (Appointment ℕ))),
    acts.forM (calendar ℕ).thread.step Calendar.init = .ok ⟨⟩ s → (calendar ℕ).ExactlyOnce s := by
  intro hclaim
  have honce := (hclaim [.resume, .call ⟨0, 10, by decide⟩, .delta, .resume, .advance 10,
    .call ⟨1, 10, by decide⟩, .resume] _ (eq_ok_endState (by decide +kernel))).once
  have hmem := (List.Perm.map Entry.serial honce).mem_iff.2 (show 1 ∈ _ by decide +kernel)
  revert hmem
  decide +kernel

end LoggerScheduler

end Vpsim.Core
