import Vpsim.Lib.Cooperative
import Vpsim.Lib.OrderedMap
import Mathlib.Data.List.Perm.Basic
import Mathlib.Data.List.Range

/-!
# The watchdogs of the real-time clock

`Rtc` keeps one watchdog for each index, and its thread raises the interrupt of a watchdog whose
deadline is reached. While it waits for a deadline it keeps a copy of the next watchdog, and after
every wake-up it looks for the next one again, without testing whether there is one.

A watchdog that has been set is known by the number of watchdogs set before it. Interrupts are raised
on a parameter type of interfaces, and raising one does not come back to the clock.
-/

namespace Vpsim.Peripherals

open Vpsim.Lib

/-- `IrqWatchdog`. -/
structure IrqWatchdog (F : Type) where
  watchdogIdx : ℕ
  deadline : ℕ
  irqIf : F
  value : ℕ
  irqIdx : ℕ
deriving DecidableEq

/-- `isPassed`. -/
def IrqWatchdog.isPassed {F : Type} (w : IrqWatchdog F) (now : ℕ) : Prop := w.deadline ≤ now

instance {F : Type} (w : IrqWatchdog F) (now : ℕ) : Decidable (w.isPassed now) :=
  inferInstanceAs (Decidable (_ ≤ _))

/-- A watchdog that has been set, and when. -/
structure Armed (F : Type) where
  serial : ℕ
  time : ℕ
  watchdog : IrqWatchdog F
deriving DecidableEq

/-- A call of `update_irq` with the value and the line of a watchdog. -/
structure Fired (F : Type) where
  armed : Armed F
  time : ℕ
deriving DecidableEq

/-- The clock: whether the simulation has started, `mWatchdogs`, and what has become of the watchdogs
so far. The last field says that `getNextWatchdog` has been evaluated on an empty map, which reads
beyond its end. -/
structure Rtc (F : Type) where
  started : Bool
  mWatchdogs : List (ℕ × Armed F)
  accepted : List (Armed F)
  fired : List (Fired F)
  removed : List (Armed F)
  undefined : Bool

/-- What another process, or the kernel, does to the clock. -/
inductive RtcCall (F : Type)
  | startOfSimulation
  | setWatchdog (w : IrqWatchdog F)
  | cancelWatchdog (idx : ℕ)
deriving DecidableEq

/-- Where the thread waits: it has not run yet, the map was empty, for the deadline of a watchdog, or
nowhere, after `getNextWatchdog` has been evaluated on an empty map. -/
inductive WatchPoint
  | start
  | idle
  | asleep
  | lost
deriving DecidableEq

namespace Rtc

variable {F : Type}

/-- One step of the scan for the smallest deadline. -/
def earlier (next : Armed F) (p : ℕ × Armed F) : Armed F :=
  if next.watchdog.deadline > p.2.watchdog.deadline then p.2 else next

/-- `getNextWatchdog`, with `none` for an empty map. -/
def getNextWatchdog : List (ℕ × Armed F) → Option (Armed F)
  | [] => none
  | first :: rest => some ((first :: rest).foldl earlier first.2)

/-- `cancelWatchdog`: the clock and the result. It notifies the thread if it has removed a watchdog. -/
def cancelWatchdog (idx : ℕ) (c : Rtc F) : Rtc F × Bool :=
  match findEntry idx c.mWatchdogs with
  | some w => ({ c with mWatchdogs := eraseEntry idx c.mWatchdogs, removed := c.removed ++ [w] }, true)
  | none => (c, false)

/-- `setWatchdog`, which replaces the watchdog of the same index. Before the simulation has started it
does not notify the thread, unless it replaces one. -/
def setWatchdog (now : ℕ) (w : IrqWatchdog F) (c : Rtc F) : Rtc F × Bool :=
  let r := cancelWatchdog w.watchdogIdx c
  let armed : Armed F := ⟨r.1.accepted.length, now, w⟩
  let c := { r.1 with
    mWatchdogs := setEntry w.watchdogIdx armed r.1.mWatchdogs
    accepted := r.1.accepted ++ [armed] }
  (c, r.2 || r.1.started)

/-- A call, and whether it notifies the thread. -/
def call (now : ℕ) : RtcCall F → Rtc F → Rtc F × Bool
  | .startOfSimulation, c => ({ c with started := true }, false)
  | .setWatchdog w, c => setWatchdog now w c
  | .cancelWatchdog idx, c => cancelWatchdog idx c

/-- The watchdog is erased and its interrupt raised. -/
def fire (now : ℕ) (w : Armed F) (c : Rtc F) : Rtc F :=
  { c with
    mWatchdogs := eraseEntry w.watchdog.watchdogIdx c.mWatchdogs
    fired := c.fired ++ [⟨w, now⟩] }

/-- The loop of `watchThread` up to its next wait. Every round but the last one takes a watchdog out of
the map, so its length bounds the rounds. -/
def serve (now : ℕ) : (fuel : ℕ) → Rtc F → Rtc F
  | 0, c => c
  | fuel + 1, c =>
    match getNextWatchdog c.mWatchdogs with
    | none => c
    | some w => if w.watchdog.isPassed now then serve now fuel (fire now w c) else c

/-- The thread waits for the next watchdog, or for a new one. A thread that has fired has notified its
own event, which wakes it in the next delta cycle as a timeout of no time does. -/
def rest (now : ℕ) (hasFired : Bool) (c : Rtc F) : Rtc F × WatchPoint × Option ℕ :=
  match getNextWatchdog c.mWatchdogs with
  | none => (c, .idle, if hasFired then some 0 else none)
  | some w => (c, .asleep, some (if hasFired then 0 else w.watchdog.deadline - now))

/-- `watchThread` from one wait to the next. -/
def watch (now : ℕ) (p : WatchPoint) (c : Rtc F) : Rtc F × WatchPoint × Option ℕ :=
  let c := { c with started := true }
  match p with
  | .lost => (c, .lost, none)
  | .asleep =>
    if c.mWatchdogs = [] then ({ c with undefined := true }, .lost, none)
    else
      let c' := serve now c.mWatchdogs.length c
      rest now (c'.fired.length != c.fired.length) c'
  | _ =>
    let c' := serve now c.mWatchdogs.length c
    rest now (c'.fired.length != c.fired.length) c'

/-- The clock and its thread. -/
def thread (F : Type) : Thread (Rtc F) WatchPoint (RtcCall F) := ⟨watch, call⟩

/-- The clock when it is built. -/
def init : Simulation (Rtc F) WatchPoint := Thread.start ⟨false, [], [], [], [], false⟩ .start

/-- When a watchdog is due: at its deadline, or as soon as it is set. -/
def due (w : Armed F) : ℕ := max w.watchdog.deadline w.time

/-- Every watchdog that has been set has fired once, or has been cancelled or replaced and has not fired,
or is in the map. It fires when it is due, and time does not pass that moment before. With no more calls
every watchdog in the map fires. The map was never empty when the next watchdog was asked for. -/
structure FiresOnce (s : Simulation (Rtc F) WatchPoint) : Prop where
  nodup : s.object.accepted.Nodup
  once : (s.object.fired.map Fired.armed ++ s.object.removed ++ s.object.mWatchdogs.map Prod.snd).Perm
    s.object.accepted
  on_time : ∀ f ∈ s.object.fired, f.time = due f.armed
  pending : ∀ p ∈ s.object.mWatchdogs, s.now ≤ due p.2
  defined : s.object.undefined = false
  progress : ∃ s', (thread F).Runs s s' ∧ s'.object.accepted = s.object.accepted ∧
    s'.object.removed = s.object.removed ∧ s'.object.mWatchdogs = []

/-- A thread that is resumed from its wait for a deadline finds a watchdog. -/
def FindsWatchdog (s : Simulation (Rtc F) WatchPoint) (a : Action (RtcCall F)) : Prop :=
  a = .resume → s.wake = .runnable → s.point = .asleep → s.object.mWatchdogs ≠ []

/-! ## The next watchdog -/

variable {map : List (ℕ × Armed F)} {c : Rtc F} {w : Armed F} {now : ℕ}

/-- A step of the scan keeps one of the two, the one with the smaller deadline. -/
theorem earlier_spec (next : Armed F) (p : ℕ × Armed F) :
    (earlier next p = next ∨ earlier next p = p.2) ∧
    (earlier next p).watchdog.deadline ≤ next.watchdog.deadline ∧
    (earlier next p).watchdog.deadline ≤ p.2.watchdog.deadline := by
  unfold earlier
  split
  · rename_i hlt
    exact ⟨.inr rfl, hlt.le, le_rfl⟩
  · rename_i hge
    exact ⟨.inl rfl, le_rfl, not_lt.1 hge⟩

/-- The scan finds one of the watchdogs, and none has an earlier deadline. -/
theorem foldl_earlier (map : List (ℕ × Armed F)) (first : Armed F) :
    (map.foldl earlier first = first ∨ map.foldl earlier first ∈ map.map Prod.snd) ∧
      (map.foldl earlier first).watchdog.deadline ≤ first.watchdog.deadline ∧
      ∀ p ∈ map, (map.foldl earlier first).watchdog.deadline ≤ p.2.watchdog.deadline := by
  induction map generalizing first with
  | nil => exact ⟨.inl rfl, le_rfl, fun p hp => absurd hp List.not_mem_nil⟩
  | cons p map ih =>
    obtain ⟨hmem, hle, hall⟩ := ih (earlier first p)
    obtain ⟨hone, hfirst, hp⟩ := earlier_spec first p
    rw [List.foldl_cons]
    refine ⟨?_, hle.trans hfirst, fun q hq => ?_⟩
    · rcases hmem with heq | hmem
      · rw [heq]
        exact hone.imp_right fun heq => List.mem_cons.2 (.inl heq)
      · exact .inr (List.mem_cons_of_mem _ hmem)
    · rcases List.mem_cons.1 hq with rfl | hq
      · exact hle.trans hp
      · exact hall q hq

/-- The next watchdog of a map is in the map, and no other one has an earlier deadline. -/
theorem getNextWatchdog_spec (h : getNextWatchdog map = some w) :
    (∃ k, (k, w) ∈ map) ∧ ∀ p ∈ map, w.watchdog.deadline ≤ p.2.watchdog.deadline := by
  cases map with
  | nil => cases h
  | cons first rest =>
    obtain ⟨hmem, -, hall⟩ := foldl_earlier (first :: rest) first.2
    rw [Option.some.inj h] at hmem hall
    refine ⟨?_, hall⟩
    rcases hmem with heq | hmem
    · rw [heq]
      exact ⟨first.1, List.mem_cons_self⟩
    · obtain ⟨p, hp, hpw⟩ := List.mem_map.1 hmem
      rw [← hpw]
      exact ⟨p.1, hp⟩

/-- Only an empty map has no next watchdog. -/
theorem getNextWatchdog_eq_none : getNextWatchdog map = none ↔ map = [] := by
  cases map with
  | nil => exact iff_of_true rfl rfl
  | cons p map => exact iff_of_false (fun h => by cases h) (List.cons_ne_nil p map)

/-! ## What every action keeps -/

/-- The books of the clock: every watchdog has one place, the keys of the map are the indices of its
watchdogs, and a watchdog fires when it is due. -/
structure Kept (now : ℕ) (c : Rtc F) : Prop where
  serial : c.accepted.map Armed.serial = List.range c.accepted.length
  once : (c.fired.map Fired.armed ++ c.removed ++ c.mWatchdogs.map Prod.snd).Perm c.accepted
  keys : (c.mWatchdogs.map Prod.fst).Nodup
  key : ∀ p ∈ c.mWatchdogs, p.1 = p.2.watchdog.watchdogIdx
  on_time : ∀ f ∈ c.fired, f.time = due f.armed
  pending : ∀ p ∈ c.mWatchdogs, now ≤ due p.2 ∧ p.2.time ≤ now
  defined : c.undefined = false

/-- The books of a clock are in order when it is built. -/
theorem kept_init : Kept 0 (init (F := F)).object where
  serial := rfl
  once := List.Perm.refl _
  keys := List.nodup_nil
  key p hp := by cases hp
  on_time f hf := by cases hf
  pending p hp := by cases hp
  defined := rfl

/-- The start of the simulation keeps the books. -/
theorem Kept.start (h : Kept now c) : Kept now { c with started := true } :=
  ⟨h.serial, h.once, h.keys, h.key, h.on_time, h.pending, h.defined⟩

/-- Taking a watchdog out of the map leaves the others. -/
theorem Kept.perm_erase (h : Kept now c) {k : ℕ} (hw : (k, w) ∈ c.mWatchdogs) :
    (c.mWatchdogs.map Prod.snd).Perm (w :: (eraseEntry k c.mWatchdogs).map Prod.snd) :=
  (perm_eraseEntry h.keys hw).map Prod.snd

/-- The watchdogs that are left in the map were there before. -/
theorem mem_of_mem_erase {k : ℕ} {p : ℕ × Armed F} (hp : p ∈ eraseEntry k map) : p ∈ map :=
  List.mem_of_mem_filter hp

/-- Cancelling keeps the books. -/
theorem Kept.cancel (h : Kept now c) (idx : ℕ) : Kept now (cancelWatchdog idx c).1 := by
  unfold cancelWatchdog
  cases hfind : findEntry idx c.mWatchdogs with
  | none => exact h
  | some w =>
    refine ⟨h.serial, ?_, nodup_eraseEntry h.keys idx, fun p hp => h.key p (mem_of_mem_erase hp), h.on_time,
      fun p hp => h.pending p (mem_of_mem_erase hp), h.defined⟩
    refine List.Perm.trans ?_ h.once
    dsimp only
    rw [← List.append_assoc, List.append_assoc (c.fired.map Fired.armed ++ c.removed)]
    exact (h.perm_erase (mem_of_findEntry hfind)).symm.append_left _

/-- What is left after cancelling was in the map before, under another index. -/
theorem cancelWatchdog_map (idx : ℕ) (c : Rtc F) :
    ∀ p ∈ (cancelWatchdog idx c).1.mWatchdogs, p ∈ c.mWatchdogs ∧ p.1 ≠ idx := by
  intro p hp
  unfold cancelWatchdog at hp
  cases hfind : findEntry idx c.mWatchdogs with
  | none =>
    rw [hfind] at hp
    refine ⟨hp, ?_⟩
    rintro rfl
    exact findEntry_ne_none hp hfind
  | some w =>
    rw [hfind] at hp
    exact ⟨mem_of_mem_erase hp, by simpa using (List.mem_filter.1 hp).2⟩

/-- Setting a watchdog keeps the books. -/
theorem Kept.set (h : Kept now c) (w : IrqWatchdog F) : Kept now (setWatchdog now w c).1 := by
  have hc := h.cancel w.watchdogIdx
  have hmap := cancelWatchdog_map w.watchdogIdx c
  unfold setWatchdog
  generalize cancelWatchdog w.watchdogIdx c = r at hc hmap
  have hperm : (setEntry w.watchdogIdx (⟨r.1.accepted.length, now, w⟩ : Armed F) r.1.mWatchdogs).Perm
      ((w.watchdogIdx, ⟨r.1.accepted.length, now, w⟩) :: r.1.mWatchdogs) :=
    setEntry_perm fun p hp => (hmap p hp).2
  refine ⟨?_, ?_, ?_, fun p hp => ?_, hc.on_time, fun p hp => ?_, hc.defined⟩
  · dsimp only
    rw [List.map_append, hc.serial, List.length_append]
    exact List.range_succ.symm
  · dsimp only
    refine ((hperm.map Prod.snd).append_left _).trans ?_
    exact List.perm_middle.trans ((hc.once.cons _).trans (List.perm_append_singleton _ _).symm)
  · rw [(hperm.map Prod.fst).nodup_iff]
    refine List.nodup_cons.2 ⟨fun hmem => ?_, hc.keys⟩
    obtain ⟨p, hp, hkey⟩ := List.mem_map.1 hmem
    exact (hmap p hp).2 hkey
  · rcases List.mem_cons.1 (hperm.mem_iff.1 hp) with rfl | hp
    · rfl
    · exact hc.key p hp
  · rcases List.mem_cons.1 (hperm.mem_iff.1 hp) with rfl | hp
    · exact ⟨le_max_right _ _, le_rfl⟩
    · exact hc.pending p hp

/-- Firing a watchdog whose deadline is reached keeps the books. -/
theorem Kept.fire (h : Kept now c) (hw : getNextWatchdog c.mWatchdogs = some w)
    (hpassed : w.watchdog.isPassed now) : Kept now (fire now w c) := by
  obtain ⟨⟨k, hk⟩, -⟩ := getNextWatchdog_spec hw
  have hkey : k = w.watchdog.watchdogIdx := h.key (k, w) hk
  rw [hkey] at hk
  refine ⟨h.serial, ?_, nodup_eraseEntry h.keys _, fun p hp => h.key p (mem_of_mem_erase hp), fun f hf => ?_,
    fun p hp => h.pending p (mem_of_mem_erase hp), h.defined⟩
  · refine List.Perm.trans ?_ h.once
    change ((c.fired ++ [(⟨w, now⟩ : Fired F)]).map Fired.armed ++ c.removed ++ _).Perm _
    rw [List.map_append, List.append_assoc, List.append_assoc, List.append_assoc]
    refine List.Perm.append_left _ ?_
    refine List.Perm.trans ?_ ((h.perm_erase hk).symm.append_left _)
    change (w :: (c.removed ++ (eraseEntry w.watchdog.watchdogIdx c.mWatchdogs).map Prod.snd)).Perm _
    exact List.perm_middle.symm
  · rcases List.mem_append.1 hf with hf | hf
    · exact h.on_time f hf
    · rw [List.mem_singleton.1 hf]
      obtain ⟨hle, htime⟩ := h.pending (w.watchdog.watchdogIdx, w) hk
      exact le_antisymm hle (max_le hpassed htime)

/-- A round takes a watchdog out of the map. -/
theorem length_fire (h : Kept now c) (hw : getNextWatchdog c.mWatchdogs = some w) :
    (fire now w c).mWatchdogs.length + 1 = c.mWatchdogs.length := by
  obtain ⟨⟨k, hk⟩, -⟩ := getNextWatchdog_spec hw
  have hkey : k = w.watchdog.watchdogIdx := h.key (k, w) hk
  rw [hkey] at hk
  exact (perm_eraseEntry h.keys hk).length_eq.symm

/-- What the thread does up to its next wait: it keeps the books, leaves no watchdog whose deadline is
reached, and takes out of the map what it fires. -/
theorem serve_spec {fuel : ℕ} (h : Kept now c) (hfuel : c.mWatchdogs.length ≤ fuel) :
    Kept now (serve now fuel c) ∧ (∀ p ∈ (serve now fuel c).mWatchdogs, now < p.2.watchdog.deadline) ∧
      (serve now fuel c).accepted = c.accepted ∧ (serve now fuel c).removed = c.removed ∧
      (serve now fuel c).started = c.started ∧
      (serve now fuel c).fired.length + (serve now fuel c).mWatchdogs.length =
        c.fired.length + c.mWatchdogs.length ∧
      c.fired.length ≤ (serve now fuel c).fired.length := by
  induction fuel generalizing c with
  | zero =>
    have hnil : c.mWatchdogs = [] := List.length_eq_zero_iff.1 (Nat.le_zero.1 hfuel)
    refine ⟨h, fun p hp => ?_, rfl, rfl, rfl, rfl, le_rfl⟩
    unfold serve at hp
    rw [hnil] at hp
    cases hp
  | succ fuel ih =>
    unfold serve
    cases hnext : getNextWatchdog c.mWatchdogs with
    | none =>
      refine ⟨h, fun p hp => ?_, rfl, rfl, rfl, rfl, le_rfl⟩
      rw [getNextWatchdog_eq_none.1 hnext] at hp
      cases hp
    | some w =>
      dsimp only
      split
      · rename_i hpassed
        have hlength := length_fire h hnext
        obtain ⟨hkept, hnone, hacc, hrem, hstart, hcount, hle⟩ :=
          ih (c := fire now w c) (h.fire hnext hpassed) (by omega)
        have hfired : (fire now w c).fired.length = c.fired.length + 1 := List.length_append
        exact ⟨hkept, hnone, hacc, hrem, hstart, by omega, by omega⟩
      · rename_i hpassed
        refine ⟨h, fun p hp => ?_, rfl, rfl, rfl, rfl, le_rfl⟩
        have hfirst := (getNextWatchdog_spec hnext).2 p hp
        unfold IrqWatchdog.isPassed at hpassed
        omega

/-! ## Every action -/

/-- The thread is about to look at the map, or the map is empty, or it waits at most for the first
deadline. -/
def Attentive (s : Simulation (Rtc F) WatchPoint) : WatchPoint → Prop
  | .start => s.wake = .runnable
  | .idle => s.object.mWatchdogs = [] ∨ s.notified = true ∨ s.wake = .runnable ∨
    s.wake = .blocked (some s.now)
  | .asleep => s.notified = true ∨ s.wake = .runnable ∨
    ∃ d, s.wake = .blocked (some d) ∧ s.now ≤ d ∧
      (d = s.now ∨ ∀ p ∈ s.object.mWatchdogs, d ≤ p.2.watchdog.deadline)
  | .lost => False

/-- What every action keeps. -/
structure Inv (s : Simulation (Rtc F) WatchPoint) : Prop where
  kept : Kept s.now s.object
  started : s.point ≠ .start → s.object.started = true
  attentive : Attentive s s.point

variable {s : Simulation (Rtc F) WatchPoint}

/-- The thread has not read an empty map. -/
theorem Inv.not_lost (h : Inv s) : s.point ≠ .lost := by
  intro hlost
  have hatt := h.attentive
  rw [hlost] at hatt
  exact hatt

theorem inv_init : Inv (init (F := F)) := ⟨kept_init, fun h => absurd rfl h, rfl⟩

/-- A call that does not notify the thread leaves the map alone, or comes before the simulation. -/
theorem call_quiet (op : RtcCall F) (h : (call now op c).2 = false) :
    (call now op c).1.mWatchdogs = c.mWatchdogs ∨ c.started = false := by
  cases op with
  | startOfSimulation => exact .inl rfl
  | cancelWatchdog idx =>
    left
    change (cancelWatchdog idx c).2 = false at h
    change (cancelWatchdog idx c).1.mWatchdogs = _
    unfold cancelWatchdog at h ⊢
    cases hfind : findEntry idx c.mWatchdogs with
    | none => rfl
    | some w =>
      rw [hfind] at h
      cases h
  | setWatchdog w =>
    right
    change ((cancelWatchdog w.watchdogIdx c).2 || (cancelWatchdog w.watchdogIdx c).1.started) = false at h
    unfold cancelWatchdog at h
    cases hfind : findEntry w.watchdogIdx c.mWatchdogs with
    | none =>
      rw [hfind] at h
      exact h
    | some w =>
      rw [hfind] at h
      cases h

/-- The simulation stays started. -/
theorem call_started (op : RtcCall F) (h : c.started = true) : (call now op c).1.started = true := by
  have hcancel (idx : ℕ) : (cancelWatchdog idx c).1.started = true := by
    unfold cancelWatchdog
    cases findEntry idx c.mWatchdogs <;> exact h
  cases op with
  | startOfSimulation => rfl
  | cancelWatchdog idx => exact hcancel idx
  | setWatchdog w => exact hcancel w.watchdogIdx

/-- A call keeps the books. -/
theorem Kept.call (h : Kept now c) (op : RtcCall F) : Kept now (call now op c).1 := by
  cases op with
  | startOfSimulation => exact h.start
  | cancelWatchdog idx => exact h.cancel idx
  | setWatchdog w => exact h.set w

/-- A call keeps the invariant. -/
theorem Inv.call (h : Inv s) (op : RtcCall F) : Inv ((thread F).afterCall op s) := by
  refine ⟨h.kept.call op, fun hpoint => call_started op (h.started hpoint), ?_⟩
  have hatt := h.attentive
  change Attentive ((thread F).afterCall op s) s.point
  cases hquiet : (Rtc.call s.now op s.object).2 with
  | true =>
    have hnotified : ((thread F).afterCall op s).notified = true :=
      (congrArg (s.notified || ·) hquiet).trans (Bool.or_true _)
    cases hpoint : s.point with
    | start =>
      rw [hpoint] at hatt
      exact hatt
    | idle => exact .inr (.inl hnotified)
    | asleep => exact .inl hnotified
    | lost =>
      rw [hpoint] at hatt
      exact hatt
  | false =>
    have hnotified : ((thread F).afterCall op s).notified = s.notified :=
      (congrArg (s.notified || ·) hquiet).trans (Bool.or_false _)
    have hmap (hpoint : s.point ≠ .start) :
        ((thread F).afterCall op s).object.mWatchdogs = s.object.mWatchdogs := by
      refine (call_quiet op hquiet).resolve_right fun hnot => ?_
      rw [h.started hpoint] at hnot
      cases hnot
    cases hpoint : s.point with
    | start =>
      rw [hpoint] at hatt
      exact hatt
    | idle =>
      rw [hpoint] at hatt
      unfold Attentive
      rw [hmap (by simp [hpoint]), hnotified]
      exact hatt
    | asleep =>
      rw [hpoint] at hatt
      unfold Attentive
      rw [hmap (by simp [hpoint]), hnotified]
      exact hatt
    | lost =>
      rw [hpoint] at hatt
      exact hatt

/-- The clock after the thread has served it. -/
def served (s : Simulation (Rtc F) WatchPoint) : Rtc F :=
  serve s.now s.object.mWatchdogs.length { s.object with started := true }

/-- The thread serves the clock and waits again, unless it looks for a watchdog in vain. -/
theorem watch_eq (h : s.point ≠ .lost) (hfinds : s.point = .asleep → s.object.mWatchdogs ≠ []) :
    watch s.now s.point s.object =
      rest s.now ((served s).fired.length != s.object.fired.length) (served s) := by
  unfold watch
  cases hpoint : s.point with
  | start => rfl
  | idle => rfl
  | asleep => exact if_neg (hfinds hpoint)
  | lost => exact absurd hpoint h

/-- Serving keeps the books, and leaves only watchdogs whose deadline is ahead. -/
theorem Inv.served_spec (h : Inv s) : Kept s.now (served s) ∧
    (∀ p ∈ (served s).mWatchdogs, s.now < p.2.watchdog.deadline) ∧
    (served s).accepted = s.object.accepted ∧ (served s).removed = s.object.removed ∧
    (served s).started = true ∧
    (served s).fired.length + (served s).mWatchdogs.length =
      s.object.fired.length + s.object.mWatchdogs.length ∧
    s.object.fired.length ≤ (served s).fired.length := by
  exact serve_spec h.kept.start le_rfl

/-- After serving the thread idles when the map is empty, and else sleeps until the next deadline. -/
theorem Inv.rest_cases (h : Inv s) (hasFired : Bool) :
    ((served s).mWatchdogs = [] ∧
      rest s.now hasFired (served s) = (served s, .idle, if hasFired then some 0 else none)) ∨
    ∃ w, getNextWatchdog (served s).mWatchdogs = some w ∧ s.now < w.watchdog.deadline ∧
      rest s.now hasFired (served s) =
        (served s, .asleep, some (if hasFired then 0 else w.watchdog.deadline - s.now)) := by
  unfold rest
  cases hnext : getNextWatchdog (served s).mWatchdogs with
  | none => exact .inl ⟨getNextWatchdog_eq_none.1 hnext, rfl⟩
  | some w =>
    obtain ⟨⟨k, hk⟩, -⟩ := getNextWatchdog_spec hnext
    exact .inr ⟨w, rfl, h.served_spec.2.1 (k, w) hk, rfl⟩

/-- An activation of the thread that finds a watchdog keeps the invariant. -/
theorem Inv.resume (h : Inv s) (hfinds : s.point = .asleep → s.object.mWatchdogs ≠ []) :
    Inv ((thread F).afterResume s) := by
  obtain ⟨hkept, -, -, -, hstarted, -, -⟩ := h.served_spec
  unfold Thread.afterResume thread
  dsimp only
  rw [watch_eq h.not_lost hfinds]
  generalize ((served s).fired.length != s.object.fired.length) = hasFired
  rcases h.rest_cases hasFired with ⟨hnil, heq⟩ | ⟨w, hnext, hlt, heq⟩
  · rw [heq]
    exact ⟨hkept, fun _ => hstarted, .inl hnil⟩
  · rw [heq]
    refine ⟨hkept, fun _ => hstarted, .inr (.inr ⟨_, rfl, Nat.le_add_right _ _, ?_⟩)⟩
    dsimp only
    split
    · exact .inl (Nat.add_zero _)
    · rw [Nat.add_sub_cancel' hlt.le]
      exact .inr (getNextWatchdog_spec hnext).2

/-- A delta cycle keeps the invariant. -/
theorem Inv.delta (h : Inv s) : Inv { s with wake := .runnable, notified := false } := by
  refine ⟨h.kept, h.started, ?_⟩
  have hatt := h.attentive
  dsimp only
  cases hpoint : s.point with
  | start => exact rfl
  | idle => exact .inr (.inr (.inl rfl))
  | asleep => exact .inr (.inl rfl)
  | lost =>
    rw [hpoint] at hatt
    exact hatt

/-- Time that advances keeps the invariant. -/
theorem Inv.advance (h : Inv s) {d : Option ℕ} {t : ℕ} (hwake : s.wake = .blocked d)
    (hn : s.notified = false) (hlt : s.now < t) (ht : ∀ e ∈ d, t ≤ e) :
    Inv { s with now := t, wake := if d = some t then .runnable else .blocked d } := by
  have hatt := h.attentive
  have hkept (hmap : ∀ p ∈ s.object.mWatchdogs, t ≤ due p.2) : Kept t s.object :=
    ⟨h.kept.serial, h.kept.once, h.kept.keys, h.kept.key, h.kept.on_time,
      fun p hp => ⟨hmap p hp, (h.kept.pending p hp).2.trans hlt.le⟩, h.kept.defined⟩
  cases hpoint : s.point with
  | start =>
    rw [hpoint, Attentive, hwake] at hatt
    cases hatt
  | lost =>
    rw [hpoint] at hatt
    exact hatt.elim
  | idle =>
    rw [hpoint, Attentive, hn, hwake] at hatt
    have hnil : s.object.mWatchdogs = [] := by
      rcases hatt with hnil | hn | hr | hd
      · exact hnil
      · cases hn
      · cases hr
      · cases hd
        exact absurd (ht s.now rfl) (Nat.not_le.2 hlt)
    refine ⟨hkept fun p hp => ?_, fun hs => h.started (hpoint ▸ hs), ?_⟩
    · rw [hnil] at hp
      cases hp
    · exact .inl hnil
  | asleep =>
    rw [hpoint, Attentive, hn, hwake] at hatt
    obtain ⟨d', rfl, hfirst⟩ :
        ∃ d', d = some d' ∧ ∀ p ∈ s.object.mWatchdogs, d' ≤ p.2.watchdog.deadline := by
      rcases hatt with hn | hr | ⟨d', hd, -, hnow | hfirst⟩
      · cases hn
      · cases hr
      · cases hd
        exact absurd (ht d' rfl) (Nat.not_le.2 (hnow ▸ hlt))
      · cases hd
        exact ⟨d', rfl, hfirst⟩
    refine ⟨hkept fun p hp => ?_, fun _ => h.started (by simp [hpoint]), ?_⟩
    · exact (ht d' rfl).trans ((hfirst p hp).trans (le_max_left _ _))
    · dsimp only
      split
      · exact .inr (.inl rfl)
      · exact .inr (.inr ⟨d', rfl, ht d' rfl, .inr hfirst⟩)

/-- An action keeps the invariant, if the thread finds a watchdog when it is resumed. -/
theorem Inv.step (h : Inv s) {a : Action (RtcCall F)} {s' : Simulation (Rtc F) WatchPoint}
    (hfinds : FindsWatchdog s a) (hrun : (thread F).step a s = .ok ⟨⟩ s') : Inv s' := by
  rcases Thread.step_cases hrun with ⟨op, -, rfl⟩ | ⟨ha, hwake, rfl⟩ | ⟨d, -, -, -, rfl⟩ |
    ⟨t, d, -, hwake, hn, hlt, ht, rfl⟩
  · exact h.call op
  · exact h.resume (hfinds ha hwake)
  · exact h.delta
  · exact h.advance hwake hn hlt ht

/-! ## Every watchdog fires -/

/-- Serving either changes nothing or takes a watchdog out of the map. -/
theorem serve_eq_or_lt {fuel : ℕ} (h : Kept now c) (hfuel : c.mWatchdogs.length ≤ fuel) :
    serve now fuel c = c ∨ (serve now fuel c).mWatchdogs.length < c.mWatchdogs.length := by
  cases fuel with
  | zero => exact .inl rfl
  | succ fuel =>
    unfold serve
    cases hnext : getNextWatchdog c.mWatchdogs with
    | none => exact .inl rfl
    | some w =>
      dsimp only
      split
      · rename_i hpassed
        right
        have hlength := length_fire h hnext
        have hfired : (fire now w c).fired.length = c.fired.length + 1 := List.length_append
        have hfuel : (fire now w c).mWatchdogs.length ≤ fuel := by omega
        obtain ⟨-, -, -, -, -, hcount, hle⟩ := serve_spec (h.fire hnext hpassed) hfuel
        omega
      · exact .inl rfl

/-- The kernel and the thread alone lead from one state to another. -/
structure Leads (s t : Simulation (Rtc F) WatchPoint) : Prop where
  runs : (thread F).Runs s t
  inv : Inv t
  accepted : t.object.accepted = s.object.accepted
  removed : t.object.removed = s.object.removed

variable {t u : Simulation (Rtc F) WatchPoint}

theorem Leads.refl (h : Inv s) : Leads s s := ⟨.refl, h, rfl, rfl⟩

theorem Leads.trans (h : Leads s t) (h' : Leads t u) : Leads s u :=
  ⟨h.runs.trans h'.runs, h'.inv, h'.accepted.trans h.accepted, h'.removed.trans h.removed⟩

/-- One action that leaves the books alone leads on. -/
theorem Leads.single {a : Action (RtcCall F)} (ha : ¬ a.IsCall)
    (hrun : (thread F).step a s = .ok ⟨⟩ t) (ht : Inv t)
    (hacc : t.object.accepted = s.object.accepted) (hrem : t.object.removed = s.object.removed) :
    Leads s t :=
  ⟨.cons ha hrun .refl, ht, hacc, hrem⟩

/-- A delta cycle that wakes the thread leads on. -/
theorem Inv.leads_delta (h : Inv s) {d : Option ℕ} (hwake : s.wake = .blocked d)
    (hdue : s.notified = true ∨ d = some s.now) :
    Leads s { s with wake := .runnable, notified := false } :=
  .single id (Thread.step_delta hwake hdue) h.delta rfl rfl

/-- Time that advances to the timeout of the thread leads on. -/
theorem Inv.leads_advance (h : Inv s) {d : ℕ} (hwake : s.wake = .blocked (some d))
    (hn : s.notified = false) (hlt : s.now < d) : Leads s { s with now := d, wake := .runnable } := by
  have hadvance := h.advance hwake hn hlt (t := d) (by simp)
  rw [if_pos rfl] at hadvance
  exact .single id (Thread.step_advance hwake hn hlt) hadvance rfl rfl

/-- An activation that finds a watchdog leaves the clock as serving does. -/
theorem Inv.afterResume_object (h : Inv s) (hmap : s.object.mWatchdogs ≠ []) :
    ((thread F).afterResume s).object = served s := by
  unfold Thread.afterResume thread
  dsimp only
  rw [watch_eq h.not_lost fun _ => hmap]
  rcases h.rest_cases ((served s).fired.length != s.object.fired.length) with ⟨-, heq⟩ | ⟨w, -, -, heq⟩
  · rw [heq]
  · rw [heq]

/-- An activation with a watchdog in the map leads on. -/
theorem Inv.leads_resume (h : Inv s) (hwake : s.wake = .runnable) (hmap : s.object.mWatchdogs ≠ []) :
    Leads s ((thread F).afterResume s) := by
  obtain ⟨-, -, hacc, hrem, -, -, -⟩ := h.served_spec
  rw [← h.afterResume_object hmap] at hacc hrem
  exact .single id (Thread.step_resume hwake) (h.resume fun _ => hmap) hacc hrem

/-- An activation either takes a watchdog out of the map, or finds none whose deadline is reached and
waits for the first deadline. -/
theorem Inv.resume_cases (h : Inv s) (hmap : s.object.mWatchdogs ≠ []) :
    ((thread F).afterResume s).object.mWatchdogs.length < s.object.mWatchdogs.length ∨
    ((thread F).afterResume s).object.mWatchdogs = s.object.mWatchdogs ∧
      (∀ p ∈ s.object.mWatchdogs, s.now < p.2.watchdog.deadline) ∧
      ∃ p ∈ s.object.mWatchdogs, ((thread F).afterResume s).wake = .blocked (some p.2.watchdog.deadline) := by
  rw [h.afterResume_object hmap]
  rcases serve_eq_or_lt h.kept.start le_rfl with heq | hlt
  · right
    have hserved : served s = { s.object with started := true } := heq
    have hnone := h.served_spec.2.1
    rw [hserved] at hnone ⊢
    refine ⟨rfl, hnone, ?_⟩
    unfold Thread.afterResume thread
    dsimp only
    rw [watch_eq h.not_lost fun _ => hmap]
    rcases h.rest_cases ((served s).fired.length != s.object.fired.length) with ⟨hnil, -⟩ | ⟨w, hnext, hlt, heq⟩
    · rw [hserved] at hnil
      exact absurd hnil hmap
    · rw [heq, hserved]
      obtain ⟨⟨k, hk⟩, -⟩ := getNextWatchdog_spec hnext
      rw [hserved] at hk
      refine ⟨(k, w), hk, ?_⟩
      simp [Nat.add_sub_cancel' hlt.le]
  · exact .inl hlt

/-- The kernel and the thread alone take a watchdog out of the map. -/
def Shrinks (s : Simulation (Rtc F) WatchPoint) : Prop :=
  ∃ t, Leads s t ∧ t.object.mWatchdogs.length < s.object.mWatchdogs.length

/-- What leads to a state with the same map that shrinks it shrinks the map. -/
theorem Shrinks.of_leads (h : Leads s t) (hmap : t.object.mWatchdogs = s.object.mWatchdogs)
    (ht : Shrinks t) : Shrinks s := by
  obtain ⟨u, hu, hlt⟩ := ht
  exact ⟨u, h.trans hu, hmap ▸ hlt⟩

/-- A runnable thread without a notification fires at the first deadline at the latest. -/
theorem Inv.shrinks_quiet (h : Inv s) (hwake : s.wake = .runnable) (hn : s.notified = false)
    (hmap : s.object.mWatchdogs ≠ []) : Shrinks s := by
  have hleads := h.leads_resume hwake hmap
  rcases h.resume_cases hmap with hlt | ⟨hsame, hnone, p, hp, hblocked⟩
  · exact ⟨_, hleads, hlt⟩
  · have hadvance := hleads.inv.leads_advance hblocked hn (hnone p hp)
    apply Shrinks.of_leads (hleads.trans hadvance) hsame
    have hmap' : ((thread F).afterResume s).object.mWatchdogs ≠ [] := hsame ▸ hmap
    refine ⟨_, hadvance.inv.leads_resume rfl hmap', ?_⟩
    -- the first deadline is now reached
    rcases hadvance.inv.resume_cases hmap' with hlt | ⟨-, hnone', -⟩
    · exact hlt
    · exact absurd (hnone' p (hsame ▸ hp)) (Nat.lt_irrefl _)

/-- A runnable thread fires. -/
theorem Inv.shrinks_runnable (h : Inv s) (hwake : s.wake = .runnable) (hmap : s.object.mWatchdogs ≠ []) :
    Shrinks s := by
  cases hn : s.notified with
  | false => exact h.shrinks_quiet hwake hn hmap
  | true =>
    have hleads := h.leads_resume hwake hmap
    rcases h.resume_cases hmap with hlt | ⟨hsame, -, p, -, hblocked⟩
    · exact ⟨_, hleads, hlt⟩
    · have hdelta := hleads.inv.leads_delta hblocked (.inl hn)
      apply Shrinks.of_leads (hleads.trans hdelta) hsame
      exact hdelta.inv.shrinks_quiet rfl rfl (hsame ▸ hmap)

/-- A thread that waits with a watchdog in the map becomes runnable. -/
theorem Inv.shrinks (h : Inv s) (hmap : s.object.mWatchdogs ≠ []) : Shrinks s := by
  cases hwake : s.wake with
  | runnable => exact h.shrinks_runnable hwake hmap
  | blocked d =>
    have hdelta (hdue : s.notified = true ∨ d = some s.now) : Shrinks s := by
      have hleads := h.leads_delta hwake hdue
      exact .of_leads hleads rfl (hleads.inv.shrinks_runnable rfl hmap)
    cases hn : s.notified with
    | true => exact hdelta (.inl hn)
    | false =>
      have hatt := h.attentive
      cases hpoint : s.point with
      | start =>
        rw [hpoint, Attentive, hwake] at hatt
        cases hatt
      | lost =>
        rw [hpoint] at hatt
        exact hatt.elim
      | idle =>
        rw [hpoint, Attentive, hn, hwake] at hatt
        rcases hatt with hnil | hn | hr | hd
        · exact absurd hnil hmap
        · cases hn
        · cases hr
        · cases hd
          exact hdelta (.inr rfl)
      | asleep =>
        rw [hpoint, Attentive, hn, hwake] at hatt
        rcases hatt with hn | hr | ⟨e, hd, hle, -⟩
        · cases hn
        · cases hr
        · cases hd
          rcases Nat.lt_or_eq_of_le hle with hlt | heq
          · have hleads := h.leads_advance hwake hn hlt
            exact .of_leads hleads rfl (hleads.inv.shrinks_runnable rfl hmap)
          · exact hdelta (.inr (congrArg some heq.symm))

/-- With no more calls every watchdog in the map fires. -/
theorem Inv.progress (h : Inv s) : ∃ t, Leads s t ∧ t.object.mWatchdogs = [] := by
  induction hn : s.object.mWatchdogs.length using Nat.strong_induction_on generalizing s with
  | _ n ih =>
    by_cases hmap : s.object.mWatchdogs = []
    · exact ⟨s, .refl h, hmap⟩
    · obtain ⟨t, ht, hlt⟩ := h.shrinks hmap
      obtain ⟨u, hu, hnil⟩ := ih _ (hn ▸ hlt) ht.inv rfl
      exact ⟨u, ht.trans hu, hnil⟩

/-- The invariant gives what the clock promises. -/
theorem Inv.firesOnce (h : Inv s) : FiresOnce s where
  nodup := List.Nodup.of_map Armed.serial (h.kept.serial ▸ List.nodup_range)
  once := h.kept.once
  on_time := h.kept.on_time
  pending p hp := (h.kept.pending p hp).1
  defined := h.kept.defined
  progress := by
    obtain ⟨t, ht, hnil⟩ := h.progress
    exact ⟨t, ht.runs, ht.accepted, ht.removed, hnil⟩

/-- A thread that is resumed from its wait for a deadline and finds no watchdog looks for one all the
same. -/
theorem breaks_of_not_findsWatchdog {a : Action (RtcCall F)} (h : ¬ FindsWatchdog s a) :
    ∃ s', (thread F).step a s = .ok ⟨⟩ s' ∧ ¬ FiresOnce s' := by
  unfold FindsWatchdog at h
  push Not at h
  obtain ⟨rfl, hwake, hpoint, hmap⟩ := h
  refine ⟨_, Thread.step_resume hwake, fun hfires => ?_⟩
  have hdefined := hfires.defined
  unfold Thread.afterResume thread at hdefined
  dsimp only at hdefined
  unfold watch at hdefined
  rw [hpoint] at hdefined
  dsimp only at hdefined
  rw [if_pos hmap] at hdefined
  cases hdefined

/-- The clock keeps its promise in every state of a run exactly when the thread finds a watchdog each
time it is resumed from its wait for a deadline. -/
theorem watchdogs_fire_once_iff (acts : List (Action (RtcCall F))) :
    Throughout (thread F).step FiresOnce init acts ↔ Along (thread F).step FindsWatchdog init acts :=
  throughout_iff_along (fun _ h => h.firesOnce) acts (fun _ _ _ _ h hfinds hrun => h.step hfinds hrun)
    (fun _ _ _ _ hnot => breaks_of_not_findsWatchdog hnot) inv_init

/-- The only watchdog is cancelled while the thread sleeps on it. -/
theorem cancel_while_asleep : ¬ ∀ acts : List (Action (RtcCall Unit)),
    Throughout (thread Unit).step FiresOnce init acts := by
  intro hall
  have hrun := hall [.call (.setWatchdog ⟨0, 10, (), 0, 0⟩), .resume, .call (.cancelWatchdog 0), .delta, .resume]
  have hfires := hrun _ [] _ (List.append_nil _).symm (eq_ok_endState (by decide +kernel))
  exact absurd hfires.defined (by decide +kernel)

end Rtc

end Vpsim.Peripherals
