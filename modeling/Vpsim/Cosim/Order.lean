import Vpsim.Cosim.MainMemCosim
import Mathlib.Data.List.Basic
import Mathlib.Algebra.Order.Ring.Nat

/-!
# The order of the requests

What the memory thread holds is before everything in the queue, what it has handed out before both, and a request is
handed out only once the CPU thread has left its epoch. Each request that was pushed waits or was handed to each
simulator.
-/

namespace Vpsim.Cosim

open Vpsim.Lib

variable {simulators : ℕ} {s s' : CosimState} {u v w k r : Req}

/-- Nothing that waits is to be popped before `k`. -/
def First (k : Req) (pq : List Req) : Prop := ∀ r ∈ pq, ¬ compareReq k r

/-- What a step of the memory thread can do. -/
inductive RunStep (simulators : ℕ) (s : CosimState) : CosimState → Prop where
  | top (hrun : s.run = .top) : RunStep simulators s { s with run := .waitCpu s.memEpoch }
  | waitCpu (tmp : ℕ) (hrun : s.run = .waitCpu tmp) (hahead : tmp < s.cpuEpoch) :
    RunStep simulators s { s with run := .popFirst tmp }
  | popNone (tmp : ℕ) (hrun : s.run = .popFirst tmp) (hempty : s.pq = []) :
    RunStep simulators s { s with run := .advance }
  | popOther (tmp : ℕ) (k : Req) (hrun : s.run = .popFirst tmp) (hmem : k ∈ s.pq) (hfirst : First k s.pq)
    (hother : tmp ≠ k.epoch) : RunStep simulators s { s with pq := s.pq.erase k, run := .putBack k }
  | popFirst (k : Req) (hrun : s.run = .popFirst k.epoch) (hmem : k ∈ s.pq) (hfirst : First k s.pq) :
    RunStep simulators s { s with pq := s.pq.erase k, run := .lock k.epoch k }
  | putBack (k : Req) (hrun : s.run = .putBack k) :
    RunStep simulators s { s with pq := k :: s.pq, run := .setEpoch k.epoch }
  | setEpoch (epoch : ℕ) (hrun : s.run = .setEpoch epoch) :
    RunStep simulators s { s with memEpoch := epoch, run := .top }
  | lock (tmp : ℕ) (k : Req) (hrun : s.run = .lock tmp k) (hfree : s.mutex (tmp % epochs) = false) :
    RunStep simulators s { s with mutex := Function.update s.mutex (tmp % epochs) true, run := .serve tmp k 0 }
  | serve (tmp : ℕ) (k : Req) (i delay : ℕ) (refuses : Bool) (hrun : s.run = .serve tmp k i) (hlt : i < simulators)
    (hroom : k.type = .device → s.refuses k.id = false) :
    RunStep simulators s { s.handle i k delay refuses with run := .serve tmp k (i + 1) }
  | served (tmp : ℕ) (k : Req) (i : ℕ) (hrun : s.run = .serve tmp k i) (hle : simulators ≤ i)
    (htype : k.type ≠ .sesamCommand) : RunStep simulators s { s with run := .popNext tmp }
  | command (tmp : ℕ) (k : Req) (i : ℕ) (hrun : s.run = .serve tmp k i) (hle : simulators ≤ i)
    (htype : k.type = .sesamCommand) : RunStep simulators s { s with run := .unlock tmp true }
  | popLast (tmp : ℕ) (hrun : s.run = .popNext tmp) (hempty : s.pq = []) :
    RunStep simulators s { s with run := .unlock tmp false }
  | popLater (tmp : ℕ) (k : Req) (hrun : s.run = .popNext tmp) (hmem : k ∈ s.pq) (hfirst : First k s.pq)
    (hother : tmp ≠ k.epoch) : RunStep simulators s { s with pq := s.pq.erase k, run := .requeue tmp k }
  | popNext (k : Req) (hrun : s.run = .popNext k.epoch) (hmem : k ∈ s.pq) (hfirst : First k s.pq) :
    RunStep simulators s { s with pq := s.pq.erase k, run := .serve k.epoch k 0 }
  | requeue (tmp : ℕ) (k : Req) (hrun : s.run = .requeue tmp k) :
    RunStep simulators s { s with pq := k :: s.pq, run := .leave tmp k.epoch }
  | leave (tmp epoch : ℕ) (hrun : s.run = .leave tmp epoch) :
    RunStep simulators s { s with memEpoch := epoch, run := .unlock tmp true }
  | unlock (tmp : ℕ) (exitLoop : Bool) (hrun : s.run = .unlock tmp exitLoop) :
    RunStep simulators s { s with
      mutex := Function.update s.mutex (tmp % epochs) false
      run := if exitLoop then .top else .advance }
  | advance (hrun : s.run = .advance) : RunStep simulators s { s with memEpoch := s.memEpoch + 1, run := .top }

theorem tryPop_eq_some (h : s.tryPop k = some s') :
    k ∈ s.pq ∧ First k s.pq ∧ s' = { s with pq := s.pq.erase k } := by
  unfold CosimState.tryPop at h
  by_cases hpop : k ∈ s.pq ∧ ∀ r ∈ s.pq, ¬ compareReq k r
  · rw [if_pos hpop] at h
    exact ⟨hpop.1, hpop.2, (Option.some.inj h).symm⟩
  · rw [if_neg hpop] at h
    cases h

/-- Every step of the memory thread is one of these. -/
theorem runStep_cases {delay : ℕ} {refuses : Bool} (h : s.runStep simulators k delay refuses = some s') :
    RunStep simulators s s' := by
  unfold CosimState.runStep at h
  cases hrun : s.run with
  | top =>
    rw [hrun] at h
    cases h
    exact .top hrun
  | waitCpu tmp =>
    rw [hrun] at h
    dsimp only at h
    split at h
    · cases h
    · rename_i hahead
      cases h
      exact .waitCpu tmp hrun (Nat.lt_of_not_le hahead)
  | popFirst tmp =>
    rw [hrun] at h
    dsimp only at h
    split at h
    · rename_i hempty
      cases h
      exact .popNone tmp hrun hempty
    · obtain ⟨t, ht, rfl⟩ := Option.map_eq_some_iff.1 h
      obtain ⟨hmem, hfirst, rfl⟩ := tryPop_eq_some ht
      by_cases heq : tmp = k.epoch
      · subst heq
        rw [if_neg (not_not_intro rfl)]
        exact .popFirst k hrun hmem hfirst
      · rw [if_pos heq]
        exact .popOther tmp k hrun hmem hfirst heq
  | putBack k =>
    rw [hrun] at h
    cases h
    exact .putBack k hrun
  | setEpoch epoch =>
    rw [hrun] at h
    cases h
    exact .setEpoch epoch hrun
  | lock tmp k =>
    rw [hrun] at h
    dsimp only at h
    split at h
    · cases h
    · rename_i hfree
      cases h
      exact .lock tmp k hrun (Bool.eq_false_iff.2 hfree)
  | serve tmp k i =>
    rw [hrun] at h
    dsimp only at h
    split at h
    · rename_i hlt
      split at h
      · cases h
      · rename_i hroom
        cases h
        exact .serve tmp k i delay refuses hrun hlt fun htype => Bool.eq_false_iff.2 fun hfull => hroom ⟨htype, hfull⟩
    · rename_i hle
      cases h
      by_cases htype : k.type = .sesamCommand
      · rw [if_pos htype]
        exact .command tmp k i hrun (Nat.le_of_not_lt hle) htype
      · rw [if_neg htype]
        exact .served tmp k i hrun (Nat.le_of_not_lt hle) htype
  | popNext tmp =>
    rw [hrun] at h
    dsimp only at h
    split at h
    · rename_i hempty
      cases h
      exact .popLast tmp hrun hempty
    · obtain ⟨t, ht, rfl⟩ := Option.map_eq_some_iff.1 h
      obtain ⟨hmem, hfirst, rfl⟩ := tryPop_eq_some ht
      by_cases heq : tmp = k.epoch
      · subst heq
        rw [if_neg (not_not_intro rfl)]
        exact .popNext k hrun hmem hfirst
      · rw [if_pos heq]
        exact .popLater tmp k hrun hmem hfirst heq
  | requeue tmp k =>
    rw [hrun] at h
    cases h
    exact .requeue tmp k hrun
  | leave tmp epoch =>
    rw [hrun] at h
    cases h
    exact .leave tmp epoch hrun
  | unlock tmp exitLoop =>
    rw [hrun] at h
    cases h
    exact .unlock tmp exitLoop hrun
  | advance =>
    rw [hrun] at h
    cases h
    exact .advance hrun

/-- Handing out a request changes only the delays and the completion queues. -/
theorem handle_frame (i delay : ℕ) (refuses : Bool) (k : Req) (s : CosimState) :
    ∃ times delays accomplished full, s.handle i k delay refuses =
      { s with
        mTimes := times, delays := delays, accomplished := accomplished, refuses := full,
        handled := s.handled ++ [(i, k)] } := by
  unfold CosimState.handle CosimState.insert CosimState.insertIo CosimState.withAccomplished
  by_cases htype : k.type = .cpu
  · rw [if_pos htype]
    exact ⟨_, _, _, _, rfl⟩
  · rw [if_neg htype]
    by_cases hdevice : k.type = .device
    · rw [if_pos hdevice]
      exact ⟨_, _, _, _, rfl⟩
    · rw [if_neg hdevice]
      exact ⟨_, _, _, _, rfl⟩

/-! ## The invariant -/

theorem compareReq_irrefl (u : Req) : ¬ compareReq u u := by
  unfold compareReq
  omega

theorem not_compareReq_of_lt (h : u.epoch < v.epoch) : ¬ compareReq u v := by
  unfold compareReq
  omega

theorem epoch_le_of_not_compareReq (h : ¬ compareReq u v) : u.epoch ≤ v.epoch := by
  unfold compareReq at h
  omega

/-- The request that the memory thread has popped and neither put back nor handed out. -/
def RunPoint.held : RunPoint → List Req
  | .putBack k => [k]
  | .lock _ k => [k]
  | .serve _ k _ => [k]
  | .requeue _ k => [k]
  | _ => []

/-- The request that the memory thread has popped and neither put back nor handed to simulator `j`. -/
def RunPoint.heldFor (j : ℕ) : RunPoint → List Req
  | .serve _ k i => if j < i then [] else [k]
  | p => p.held

theorem heldFor_serve (j tmp i : ℕ) (k : Req) :
    (RunPoint.serve tmp k i).heldFor j = if j < i then [] else [k] := rfl

/-- What is known at each point of `Run`. -/
def RunPoint.Sound (s : CosimState) : RunPoint → Prop
  | .top => True
  | .waitCpu tmp => s.memEpoch = tmp
  | .popFirst tmp => s.memEpoch = tmp ∧ tmp < s.cpuEpoch
  | .putBack k => s.memEpoch < s.cpuEpoch ∧ s.memEpoch < k.epoch ∧ k.epoch ≤ s.cpuEpoch ∧ ∀ r ∈ s.pq, k.epoch ≤ r.epoch
  | .setEpoch epoch => s.memEpoch < epoch ∧ epoch ≤ s.cpuEpoch ∧ ∀ r ∈ s.pq, epoch ≤ r.epoch
  | .lock tmp k => s.memEpoch = tmp ∧ k.epoch = tmp ∧ tmp < s.cpuEpoch ∧ First k s.pq
  | .serve tmp k _ => s.memEpoch = tmp ∧ k.epoch = tmp ∧ tmp < s.cpuEpoch ∧ First k s.pq
  | .popNext tmp => s.memEpoch = tmp ∧ tmp < s.cpuEpoch
  | .requeue tmp k =>
    s.memEpoch = tmp ∧ tmp < s.cpuEpoch ∧ tmp < k.epoch ∧ k.epoch ≤ s.cpuEpoch ∧ ∀ r ∈ s.pq, k.epoch ≤ r.epoch
  | .leave tmp epoch =>
    s.memEpoch = tmp ∧ tmp < s.cpuEpoch ∧ tmp < epoch ∧ epoch ≤ s.cpuEpoch ∧ ∀ r ∈ s.pq, epoch ≤ r.epoch
  | .unlock tmp exitLoop =>
    tmp < s.cpuEpoch ∧ (exitLoop = false → s.memEpoch < s.cpuEpoch ∧ ∀ r ∈ s.pq, s.memEpoch < r.epoch)
  | .advance => s.memEpoch < s.cpuEpoch ∧ ∀ r ∈ s.pq, s.memEpoch < r.epoch

/-- The requests in order. -/
structure Ordered (simulators : ℕ) (s : CosimState) : Prop where
  memEpoch_le : s.memEpoch ≤ s.cpuEpoch
  pq_epoch : ∀ r ∈ s.pq, s.memEpoch ≤ r.epoch ∧ r.epoch ≤ s.cpuEpoch
  point : s.run.Sound s
  sorted : s.handled.Pairwise fun x y => ¬ compareReq x.2 y.2
  handled_first : ∀ x ∈ s.handled, First x.2 (s.run.held ++ s.pq)
  handled_epoch : ∀ x ∈ s.handled, x.2.epoch < s.cpuEpoch
  handled_lt : ∀ x ∈ s.handled, x.1 < simulators
  conserved : ∀ j < simulators, ∀ r,
    s.pushed.count r = s.handled.count (j, r) + (s.run.heldFor j ++ s.pq).count r

/-- A request of the present epoch of the CPU thread is pushed. -/
theorem Ordered.push (h : Ordered simulators s) (hr : r.epoch = s.cpuEpoch) : Ordered simulators (s.push r) := by
  have hle := h.memEpoch_le
  have hbound {n : ℕ} (hn : n ≤ s.cpuEpoch) (hpq : ∀ r ∈ s.pq, n ≤ r.epoch) : ∀ r' ∈ r :: s.pq, n ≤ r'.epoch := by
    intro r' hr'
    rcases List.mem_cons.1 hr' with rfl | hr'
    · exact hn.trans hr.ge
    · exact hpq r' hr'
  have hfirst {k : Req} (hk : k.epoch < s.cpuEpoch) (hpq : First k s.pq) : First k (r :: s.pq) := by
    intro r' hr'
    rcases List.mem_cons.1 hr' with rfl | hr'
    · exact not_compareReq_of_lt (hk.trans_eq hr.symm)
    · exact hpq r' hr'
  refine ⟨hle, ?_, ?_, h.sorted, ?_, h.handled_epoch, h.handled_lt, ?_⟩
  · intro r' hr'
    rcases List.mem_cons.1 hr' with rfl | hr'
    · exact ⟨hle.trans hr.ge, hr.le⟩
    · exact h.pq_epoch r' hr'
  · have hpoint := h.point
    change s.run.Sound _
    cases hrun : s.run with
    | top => trivial
    | waitCpu tmp =>
      rw [hrun] at hpoint
      exact hpoint
    | popFirst tmp =>
      rw [hrun] at hpoint
      exact hpoint
    | putBack k =>
      rw [hrun] at hpoint
      obtain ⟨hlt, hk, hk', hpq⟩ := hpoint
      exact ⟨hlt, hk, hk', hbound hk' hpq⟩
    | setEpoch epoch =>
      rw [hrun] at hpoint
      obtain ⟨hk, hk', hpq⟩ := hpoint
      exact ⟨hk, hk', hbound hk' hpq⟩
    | lock tmp k =>
      rw [hrun] at hpoint
      obtain ⟨hmem, hk, hlt, hpq⟩ := hpoint
      exact ⟨hmem, hk, hlt, hfirst (hk.trans_lt hlt) hpq⟩
    | serve tmp k i =>
      rw [hrun] at hpoint
      obtain ⟨hmem, hk, hlt, hpq⟩ := hpoint
      exact ⟨hmem, hk, hlt, hfirst (hk.trans_lt hlt) hpq⟩
    | popNext tmp =>
      rw [hrun] at hpoint
      exact hpoint
    | requeue tmp k =>
      rw [hrun] at hpoint
      obtain ⟨hmem, hlt, hk, hk', hpq⟩ := hpoint
      exact ⟨hmem, hlt, hk, hk', hbound hk' hpq⟩
    | leave tmp epoch =>
      rw [hrun] at hpoint
      obtain ⟨hmem, hlt, hk, hk', hpq⟩ := hpoint
      exact ⟨hmem, hlt, hk, hk', hbound hk' hpq⟩
    | unlock tmp exitLoop =>
      rw [hrun] at hpoint
      obtain ⟨htmp, hexit⟩ := hpoint
      exact ⟨htmp, fun hfalse => ⟨(hexit hfalse).1, hbound (hexit hfalse).1 (hexit hfalse).2⟩⟩
    | advance =>
      rw [hrun] at hpoint
      exact ⟨hpoint.1, hbound hpoint.1 hpoint.2⟩
  · intro x hx r' hr'
    have hheld := h.handled_first x hx
    rcases List.mem_append.1 hr' with hr' | hr'
    · exact hheld r' (List.mem_append_left _ hr')
    · exact hfirst (h.handled_epoch x hx) (fun r hr => hheld r (List.mem_append_right _ hr)) r' hr'
  · intro j hj r'
    have hcount := h.conserved j hj r'
    change (s.pushed ++ [r]).count r' = s.handled.count (j, r') + (s.run.heldFor j ++ r :: s.pq).count r'
    rw [List.count_append] at hcount ⊢
    rw [List.count_append, List.count_cons (l := s.pq), List.count_cons (l := []), List.count_nil]
    omega

/-- What is known at a point stays true when the CPU thread begins an epoch. -/
theorem RunPoint.Sound.succ {p : RunPoint} (h : p.Sound s) : p.Sound { s with cpuEpoch := s.cpuEpoch + 1 } := by
  cases p <;> unfold RunPoint.Sound at h ⊢ <;> grind

/-- The CPU thread begins an epoch. -/
theorem Ordered.withCpuEpoch (h : Ordered simulators s) :
    Ordered simulators { s with cpuEpoch := s.cpuEpoch + 1 } := by
  refine ⟨h.memEpoch_le.trans (Nat.le_succ _), fun r hr => ?_, h.point.succ, h.sorted, h.handled_first, fun x hx => ?_,
    h.handled_lt, h.conserved⟩
  · exact ⟨(h.pq_epoch r hr).1, (h.pq_epoch r hr).2.trans (Nat.le_succ _)⟩
  · exact (h.handled_epoch x hx).trans (Nat.lt_succ_self _)

/-- What is known at a point stays true when other fields change. -/
theorem RunPoint.Sound.congr {p : RunPoint} (h : p.Sound s) (hpq : s'.pq = s.pq) (hcpu : s'.cpuEpoch = s.cpuEpoch)
    (hmem : s'.memEpoch = s.memEpoch) : p.Sound s' := by
  cases p <;> unfold RunPoint.Sound at h ⊢ <;> grind

/-- The order stays when other fields change. -/
theorem Ordered.congr (h : Ordered simulators s) (hpq : s'.pq = s.pq) (hcpu : s'.cpuEpoch = s.cpuEpoch)
    (hmem : s'.memEpoch = s.memEpoch) (hrun : s'.run = s.run) (hpushed : s'.pushed = s.pushed)
    (hhandled : s'.handled = s.handled) : Ordered simulators s' := by
  refine ⟨?_, ?_, ?_, ?_, ?_, ?_, ?_, ?_⟩
  · rw [hmem, hcpu]
    exact h.memEpoch_le
  · rw [hmem, hcpu, hpq]
    exact h.pq_epoch
  · rw [hrun]
    exact h.point.congr hpq hcpu hmem
  · rw [hhandled]
    exact h.sorted
  · rw [hhandled, hrun, hpq]
    exact h.handled_first
  · rw [hhandled, hcpu]
    exact h.handled_epoch
  · rw [hhandled]
    exact h.handled_lt
  · rw [hpushed, hhandled, hrun, hpq]
    exact h.conserved

/-- A step of the memory thread that hands out nothing keeps the order, if it knows what it needs at the next point
and loses no request. -/
theorem Ordered.moved (h : Ordered simulators s) (hcpu : s'.cpuEpoch = s.cpuEpoch) (hpushed : s'.pushed = s.pushed)
    (hhandled : s'.handled = s.handled) (hmem : s'.memEpoch ≤ s.cpuEpoch)
    (hpq : ∀ r ∈ s'.pq, s'.memEpoch ≤ r.epoch ∧ r.epoch ≤ s.cpuEpoch) (hpoint : s'.run.Sound s')
    (hheld : ∀ r ∈ s'.run.held ++ s'.pq, r ∈ s.run.held ++ s.pq)
    (hcount : ∀ j < simulators, ∀ r, (s'.run.heldFor j ++ s'.pq).count r = (s.run.heldFor j ++ s.pq).count r) :
    Ordered simulators s' := by
  refine ⟨hmem.trans hcpu.ge, ?_, hpoint, ?_, ?_, ?_, ?_, ?_⟩
  · rw [hcpu]
    exact hpq
  · rw [hhandled]
    exact h.sorted
  · rw [hhandled]
    intro x hx r hr
    exact h.handled_first x hx r (hheld r hr)
  · rw [hhandled, hcpu]
    exact h.handled_epoch
  · rw [hhandled]
    exact h.handled_lt
  · intro j hj r
    rw [hpushed, hhandled, hcount j hj r]
    exact h.conserved j hj r

/-- A request that is popped is held. -/
theorem count_pop (hmem : k ∈ s.pq) (r : Req) : ([k] ++ s.pq.erase k).count r = s.pq.count r :=
  ((List.perm_cons_erase hmem).count_eq r).symm

theorem mem_pop (hmem : k ∈ s.pq) (hr : r ∈ [k] ++ s.pq.erase k) : r ∈ s.pq := by
  rcases List.mem_append.1 hr with hr | hr
  · rw [List.mem_singleton.1 hr]
    exact hmem
  · exact List.mem_of_mem_erase hr

theorem First.erase {pq : List Req} (h : First k pq) : First k (pq.erase k) :=
  fun r hr => h r (List.mem_of_mem_erase hr)

/-- The epoch of a request that is popped is the least. -/
theorem First.epoch_le {pq : List Req} (h : First k pq) : ∀ r ∈ pq, k.epoch ≤ r.epoch :=
  fun r hr => epoch_le_of_not_compareReq (h r hr)

/-- A request that was handed to every simulator counts the same, served or popped. -/
theorem count_served {i j tmp : ℕ} {pq : List Req} (h : j < i) (r : Req) :
    pq.count r = ((RunPoint.serve tmp k i).heldFor j ++ pq).count r := by
  rw [heldFor_serve, if_pos h]
  rfl

/-- Handing out a request keeps the order. -/
theorem Ordered.serve (h : Ordered simulators s) {tmp i delay : ℕ} {refuses : Bool} (hrun : s.run = .serve tmp k i)
    (hlt : i < simulators) :
    Ordered simulators { s.handle i k delay refuses with run := .serve tmp k (i + 1) } := by
  obtain ⟨times, delays, accomplished, full, hhandle⟩ := handle_frame i delay refuses k s
  rw [hhandle]
  have hpoint := h.point
  have hfirst := h.handled_first
  have hcount := h.conserved
  rw [hrun] at hpoint hfirst hcount
  obtain ⟨hmem, hk, htmp, hpq⟩ := hpoint
  have hafter : First k (k :: s.pq) := by
    intro r hr
    rcases List.mem_cons.1 hr with rfl | hr
    · exact compareReq_irrefl r
    · exact hpq r hr
  refine ⟨h.memEpoch_le, h.pq_epoch, ⟨hmem, hk, htmp, hpq⟩, ?_, ?_, ?_, ?_, ?_⟩
  · apply List.pairwise_append.2
    refine ⟨h.sorted, List.pairwise_singleton _ _, fun x hx y hy => ?_⟩
    rw [List.mem_singleton.1 hy]
    exact hfirst x hx k List.mem_cons_self
  · intro x hx
    rcases List.mem_append.1 hx with hx | hx
    · exact hfirst x hx
    · rw [List.mem_singleton.1 hx]
      exact hafter
  · intro x hx
    rcases List.mem_append.1 hx with hx | hx
    · exact h.handled_epoch x hx
    · rw [List.mem_singleton.1 hx]
      exact hk.trans_lt htmp
  · intro x hx
    rcases List.mem_append.1 hx with hx | hx
    · exact h.handled_lt x hx
    · rw [List.mem_singleton.1 hx]
      exact hlt
  · intro j hj r
    have hbefore := hcount j hj r
    change _ = (s.handled ++ [(i, k)]).count (j, r) + ((RunPoint.serve tmp k (i + 1)).heldFor j ++ s.pq).count r
    rw [heldFor_serve, List.count_append] at hbefore ⊢
    rw [List.count_append]
    rcases lt_trichotomy j i with hji | rfl | hji
    · have hother : [(i, k)].count (j, r) = 0 := List.count_eq_zero.2 (by simp [hji.ne])
      rw [if_pos hji] at hbefore
      rw [if_pos (hji.trans (Nat.lt_succ_self i)), hother, Nat.add_zero]
      exact hbefore
    · have hself : [(j, k)].count (j, r) = [k].count r := by simp [List.count_cons]
      rw [if_neg (lt_irrefl j)] at hbefore
      rw [if_pos (Nat.lt_succ_self j), hself, List.count_nil, Nat.zero_add, Nat.add_assoc]
      exact hbefore
    · have hother : [(i, k)].count (j, r) = 0 := List.count_eq_zero.2 (by simp [hji.ne'])
      rw [if_neg hji.not_gt] at hbefore
      rw [if_neg (by omega), hother, Nat.add_zero]
      exact hbefore

/-- A step of the memory thread keeps the order. -/
theorem Ordered.runStep (h : Ordered simulators s) (hstep : RunStep simulators s s') : Ordered simulators s' := by
  have hpoint := h.point
  have hle := h.memEpoch_le
  have hpq := h.pq_epoch
  cases hstep with
  | top hrun =>
    refine h.moved rfl rfl rfl hle hpq rfl ?_ ?_
    · rw [hrun]
      exact fun r hr => hr
    · rw [hrun]
      exact fun j _ r => rfl
  | waitCpu tmp hrun hahead =>
    rw [hrun] at hpoint
    refine h.moved rfl rfl rfl hle hpq ⟨hpoint, hahead⟩ ?_ ?_
    · rw [hrun]
      exact fun r hr => hr
    · rw [hrun]
      exact fun j _ r => rfl
  | popNone tmp hrun hempty =>
    rw [hrun] at hpoint
    obtain ⟨hmem, hlt⟩ := hpoint
    refine h.moved rfl rfl rfl hle hpq ⟨hmem ▸ hlt, ?_⟩ ?_ ?_
    · rw [hempty]
      exact nofun
    · rw [hrun]
      exact fun r hr => hr
    · rw [hrun]
      exact fun j _ r => rfl
  | popOther tmp k hrun hmem hfirst hother =>
    rw [hrun] at hpoint
    refine h.moved rfl rfl rfl hle (fun r hr => hpq r (List.mem_of_mem_erase hr)) ?_ ?_ ?_
    · exact ⟨hpoint.1 ▸ hpoint.2, (hpq k hmem).1.lt_of_ne (hpoint.1 ▸ hother), (hpq k hmem).2, hfirst.erase.epoch_le⟩
    · rw [hrun]
      exact fun r hr => mem_pop hmem hr
    · rw [hrun]
      exact fun j _ r => count_pop hmem r
  | popFirst k hrun hmem hfirst =>
    rw [hrun] at hpoint
    refine h.moved rfl rfl rfl hle (fun r hr => hpq r (List.mem_of_mem_erase hr)) ?_ ?_ ?_
    · exact ⟨hpoint.1, rfl, hpoint.2, hfirst.erase⟩
    · rw [hrun]
      exact fun r hr => mem_pop hmem hr
    · rw [hrun]
      exact fun j _ r => count_pop hmem r
  | putBack k hrun =>
    rw [hrun] at hpoint
    obtain ⟨hlt, hk, hk', hbound⟩ := hpoint
    refine h.moved rfl rfl rfl hle ?_ ⟨hk, hk', ?_⟩ ?_ ?_
    · intro r hr
      rcases List.mem_cons.1 hr with rfl | hr
      · exact ⟨hk.le, hk'⟩
      · exact hpq r hr
    · intro r hr
      rcases List.mem_cons.1 hr with rfl | hr
      · exact le_rfl
      · exact hbound r hr
    · rw [hrun]
      exact fun r hr => hr
    · rw [hrun]
      exact fun j _ r => rfl
  | setEpoch epoch hrun =>
    rw [hrun] at hpoint
    obtain ⟨hk, hk', hbound⟩ := hpoint
    refine h.moved rfl rfl rfl hk' (fun r hr => ⟨hbound r hr, (hpq r hr).2⟩) trivial ?_ ?_
    · rw [hrun]
      exact fun r hr => hr
    · rw [hrun]
      exact fun j _ r => rfl
  | lock tmp k hrun hfree =>
    rw [hrun] at hpoint
    refine h.moved rfl rfl rfl hle hpq hpoint ?_ ?_
    · rw [hrun]
      exact fun r hr => hr
    · rw [hrun]
      exact fun j _ r => rfl
  | serve tmp k i delay refuses hrun hlt hroom =>
    rw [hrun] at hpoint
    exact h.serve hrun hlt
  | served tmp k i hrun hserved htype =>
    rw [hrun] at hpoint
    refine h.moved rfl rfl rfl hle hpq ⟨hpoint.1, hpoint.2.2.1⟩ ?_ ?_
    · rw [hrun]
      exact fun r hr => List.mem_cons_of_mem _ hr
    · rw [hrun]
      exact fun j hj r => count_served (hj.trans_le hserved) r
  | command tmp k i hrun hserved htype =>
    rw [hrun] at hpoint
    refine h.moved rfl rfl rfl hle hpq ⟨hpoint.2.2.1, nofun⟩ ?_ ?_
    · rw [hrun]
      exact fun r hr => List.mem_cons_of_mem _ hr
    · rw [hrun]
      exact fun j hj r => count_served (hj.trans_le hserved) r
  | popLast tmp hrun hempty =>
    rw [hrun] at hpoint
    obtain ⟨hmem, hlt⟩ := hpoint
    refine h.moved rfl rfl rfl hle hpq ⟨hlt, fun _ => ⟨hmem ▸ hlt, ?_⟩⟩ ?_ ?_
    · rw [hempty]
      exact nofun
    · rw [hrun]
      exact fun r hr => hr
    · rw [hrun]
      exact fun j _ r => rfl
  | popLater tmp k hrun hmem hfirst hother =>
    rw [hrun] at hpoint
    refine h.moved rfl rfl rfl hle (fun r hr => hpq r (List.mem_of_mem_erase hr)) ?_ ?_ ?_
    · exact ⟨hpoint.1, hpoint.2, (hpoint.1 ▸ (hpq k hmem).1).lt_of_ne hother, (hpq k hmem).2, hfirst.erase.epoch_le⟩
    · rw [hrun]
      exact fun r hr => mem_pop hmem hr
    · rw [hrun]
      exact fun j _ r => count_pop hmem r
  | popNext k hrun hmem hfirst =>
    rw [hrun] at hpoint
    refine h.moved rfl rfl rfl hle (fun r hr => hpq r (List.mem_of_mem_erase hr)) ?_ ?_ ?_
    · exact ⟨hpoint.1, rfl, hpoint.2, hfirst.erase⟩
    · rw [hrun]
      exact fun r hr => mem_pop hmem hr
    · rw [hrun]
      exact fun j _ r => count_pop hmem r
  | requeue tmp k hrun =>
    rw [hrun] at hpoint
    obtain ⟨hmem, hlt, hk, hk', hbound⟩ := hpoint
    refine h.moved rfl rfl rfl hle ?_ ⟨hmem, hlt, hk, hk', ?_⟩ ?_ ?_
    · intro r hr
      rcases List.mem_cons.1 hr with rfl | hr
      · exact ⟨hmem.trans_le hk.le, hk'⟩
      · exact hpq r hr
    · intro r hr
      rcases List.mem_cons.1 hr with rfl | hr
      · exact le_rfl
      · exact hbound r hr
    · rw [hrun]
      exact fun r hr => hr
    · rw [hrun]
      exact fun j _ r => rfl
  | leave tmp epoch hrun =>
    rw [hrun] at hpoint
    obtain ⟨hmem, hlt, hk, hk', hbound⟩ := hpoint
    refine h.moved rfl rfl rfl hk' (fun r hr => ⟨hbound r hr, (hpq r hr).2⟩) ⟨hlt, nofun⟩ ?_ ?_
    · rw [hrun]
      exact fun r hr => hr
    · rw [hrun]
      exact fun j _ r => rfl
  | unlock tmp exitLoop hrun =>
    rw [hrun] at hpoint
    cases exitLoop with
    | true =>
      refine h.moved rfl rfl rfl hle hpq trivial ?_ ?_
      · rw [hrun]
        exact fun r hr => hr
      · rw [hrun]
        exact fun j _ r => rfl
    | false =>
      refine h.moved rfl rfl rfl hle hpq (hpoint.2 rfl) ?_ ?_
      · rw [hrun]
        exact fun r hr => hr
      · rw [hrun]
        exact fun j _ r => rfl
  | advance hrun =>
    rw [hrun] at hpoint
    refine h.moved rfl rfl rfl hpoint.1 (fun r hr => ⟨hpoint.2 r hr, (hpq r hr).2⟩) trivial ?_ ?_
    · rw [hrun]
      exact fun r hr => hr
    · rw [hrun]
      exact fun j _ r => rfl

theorem RunPoint.heldFor_sublist (j : ℕ) (p : RunPoint) : (p.heldFor j).Sublist p.held := by
  cases p with
  | serve tmp k i =>
    rw [heldFor_serve]
    split
    · exact List.nil_sublist _
    · exact List.Sublist.refl _
  | _ => exact List.Sublist.refl _

/-- What was handed out was pushed. -/
theorem Ordered.mem_pushed (h : Ordered simulators s) {x : ℕ × Req} (hx : x ∈ s.handled) : x.2 ∈ s.pushed := by
  have hcount := h.conserved x.1 (h.handled_lt x hx) x.2
  have hpos : 0 < s.handled.count (x.1, x.2) := List.count_pos_iff.2 hx
  exact List.count_pos_iff.1 (by omega)

/-- When a request is handed out, every request to be popped before it has been. -/
theorem Ordered.count_before (h : Ordered simulators s) {before after : List (ℕ × Req)} {i j : ℕ}
    (hsplit : s.handled = before ++ (i, r) :: after) (hj : j < simulators) (hlater : compareReq r v) :
    before.count (j, v) = s.pushed.count v := by
  have hr : (i, r) ∈ s.handled := by
    rw [hsplit]
    exact List.mem_append_right _ List.mem_cons_self
  have hwaiting : (s.run.heldFor j ++ s.pq).count v = 0 := by
    apply List.count_eq_zero.2
    intro hv
    have hsublist := (s.run.heldFor_sublist j).append_right s.pq
    exact h.handled_first (i, r) hr v (hsublist.subset hv) hlater
  have hrest : ((i, r) :: after).count (j, v) = 0 := by
    apply List.count_eq_zero.2
    intro hv
    have hsorted := h.sorted
    rw [hsplit] at hsorted
    rcases List.mem_cons.1 hv with heq | hv
    · cases heq
      exact compareReq_irrefl v hlater
    · exact (List.pairwise_cons.1 (List.pairwise_append.1 hsorted).2.1).1 _ hv hlater
  have hcount := h.conserved j hj v
  rw [hwaiting, hsplit, List.count_append, hrest] at hcount
  exact hcount.symm

/-! ## Runs -/

/-- What a call can do at once. -/
inductive CallStep (s : CosimState) : CosimState → Prop where
  | dropped (stamp : ℕ) : CallStep s { s with currentTimeStamp := stamp }
  | pushed (r : Req) (stamp : ℕ) (halted : Bool) (hr : r.epoch = s.cpuEpoch) :
    CallStep s (CosimState.push r { s with currentTimeStamp := stamp, halted := halted })
  | fillBiases (n now : ℕ) : CallStep s (s.fillBiases n now)

/-- Every call does one of these. -/
theorem callStep_after (c : Call) (s : CosimState) : CallStep s (c.after s) := by
  cases c with
  | notify cpu exec write phys size =>
    change CallStep s (s.notify cpu exec write phys size)
    unfold CosimState.notify
    split
    · exact .dropped _
    · exact .pushed _ _ _ rfl
  | notifyFetchMiss cpu phys size =>
    change CallStep s (s.notifyFetchMiss cpu phys size)
    unfold CosimState.notifyFetchMiss
    split
    · exact .dropped s.currentTimeStamp
    · exact .pushed _ s.currentTimeStamp s.halted rfl
  | notifyIo device exec write phys size tag =>
    change CallStep s (s.notifyIo device exec write phys size tag)
    unfold CosimState.notifyIo
    split
    · exact .dropped s.currentTimeStamp
    · exact .pushed _ s.currentTimeStamp s.halted rfl
  | notifySesamCommand counter start => exact .pushed _ s.currentTimeStamp _ rfl
  | fillBiases n now => exact .fillBiases n now

/-- A call keeps the order. -/
theorem Ordered.callStep (h : Ordered simulators s) (hstep : CallStep s s') : Ordered simulators s' := by
  cases hstep with
  | dropped stamp => exact h.congr rfl rfl rfl rfl rfl rfl
  | pushed r stamp halted hr => exact Ordered.push (h.congr rfl rfl rfl rfl rfl rfl) hr
  | fillBiases n now => exact h.withCpuEpoch.congr rfl rfl rfl rfl rfl rfl

/-- What a step of `FillBiases` can do. -/
inductive FillStep (simulators : ℕ) (s : CosimState) : CosimState → Prop where
  | waitMem (n now : ℕ) (hfill : s.fill = .waitMem n now) (hnear : s.cpuEpoch < s.memEpoch + epochs) :
    FillStep simulators s { s with fill := .lock n now }
  | lock (n now : ℕ) (hfill : s.fill = .lock n now) (hfree : s.mutex (s.cpuEpoch % epochs) = false) :
    FillStep simulators s
      { s with mutex := Function.update s.mutex (s.cpuEpoch % epochs) true, fill := .bias n now 0 0 }
  | bias (n now j i : ℕ) (hfill : s.fill = .bias n now j i) (hj : j < simulators) (hi : i < n) :
    FillStep simulators s { s.handOut j i with fill := .bias n now j (i + 1) }
  | nextSimulator (n now j i : ℕ) (hfill : s.fill = .bias n now j i) (hj : j < simulators) (hi : n ≤ i) :
    FillStep simulators s { s with fill := .bias n now (j + 1) 0 }
  | biased (n now j i : ℕ) (hfill : s.fill = .bias n now j i) (hj : simulators ≤ j) :
    FillStep simulators s { s with fill := .unlock now }
  | unlock (now : ℕ) (hfill : s.fill = .unlock now) :
    FillStep simulators s
      { s with mutex := Function.update s.mutex (s.cpuEpoch % epochs) false, fill := .setTime now }
  | setTime (now : ℕ) (hfill : s.fill = .setTime now) :
    FillStep simulators s { s with epochScTime := now % stampCount, fill := .idle }

/-- Every step of `FillBiases` is one of these. -/
theorem fillStep_cases (h : s.fillStep simulators = some s') : FillStep simulators s s' := by
  unfold CosimState.fillStep at h
  cases hfill : s.fill with
  | idle =>
    rw [hfill] at h
    cases h
  | waitMem n now =>
    rw [hfill] at h
    dsimp only at h
    split at h
    · cases h
    · rename_i hnear
      cases h
      exact .waitMem n now hfill (Nat.lt_of_not_le hnear)
  | lock n now =>
    rw [hfill] at h
    dsimp only at h
    split at h
    · cases h
    · rename_i hfree
      cases h
      exact .lock n now hfill (Bool.eq_false_iff.2 hfree)
  | bias n now j i =>
    rw [hfill] at h
    dsimp only at h
    split at h
    · rename_i hj
      split at h
      · rename_i hi
        cases h
        exact .bias n now j i hfill hj hi
      · rename_i hi
        cases h
        exact .nextSimulator n now j i hfill hj (Nat.le_of_not_lt hi)
    · rename_i hj
      cases h
      exact .biased n now j i hfill (Nat.le_of_not_lt hj)
  | unlock now =>
    rw [hfill] at h
    cases h
    exact .unlock now hfill
  | setTime now =>
    rw [hfill] at h
    cases h
    exact .setTime now hfill

/-- A step of `FillBiases` keeps the order. -/
theorem Ordered.fillStep (h : Ordered simulators s) (hstep : FillStep simulators s s') : Ordered simulators s' := by
  cases hstep with
  | _ => exact h.congr rfl rfl rfl rfl rfl rfl

/-- What a step of one of the threads can do. -/
inductive Step (simulators : ℕ) (s : CosimState) : Action → CosimState → Prop where
  | call (c : Call) (hidle : s.fill = .idle) : Step simulators s (.call c) (c.after s)
  | getDelay (device : ℕ) (refuses : Bool) : Step simulators s (.getDelay device refuses) (s.getDelay device refuses)
  | fill (s' : CosimState) (h : FillStep simulators s s') : Step simulators s .fill s'
  | run (k : Req) (delay : ℕ) (refuses : Bool) (s' : CosimState) (h : RunStep simulators s s') :
    Step simulators s (.run k delay refuses) s'

/-- Every step of a run is one of these. -/
theorem step_cases {a : Action} (h : step simulators a s = .ok ⟨⟩ s') : Step simulators s a s' := by
  rw [step_eq_ok] at h
  cases a with
  | call c =>
    unfold after at h
    dsimp only at h
    split at h
    · rename_i hidle
      cases h
      exact .call c hidle
    · cases h
  | getDelay device refuses =>
    cases h
    exact .getDelay device refuses
  | fill => exact .fill s' (fillStep_cases h)
  | run k delay refuses => exact .run k delay refuses s' (runStep_cases h)

/-- Each step keeps the order. -/
theorem Ordered.step {a : Action} (h : Ordered simulators s) (hstep : Step simulators s a s') :
    Ordered simulators s' := by
  cases hstep with
  | call c _ => exact h.callStep (callStep_after c s)
  | getDelay device refuses => exact h.congr rfl rfl rfl rfl rfl rfl
  | fill _ hfill => exact h.fillStep hfill
  | run k delay refuses _ hrun => exact h.runStep hrun

/-- At the start nothing waits, so all of it is in order. -/
theorem ordered_init (simulators : ℕ) (focusOnROI : Bool) : Ordered simulators (init focusOnROI) :=
  ⟨le_rfl, nofun, trivial, .nil, nofun, nofun, nofun, fun _ _ _ => rfl⟩

/-- The requests stay in order over every run. -/
theorem ordered_of_run {focusOnROI : Bool} {acts : List Action}
    (hrun : acts.forM (step simulators) (init focusOnROI) = .ok ⟨⟩ s) : Ordered simulators s :=
  of_forM_ok (fun _ _ _ _ h hstep => h.step (step_cases hstep)) (ordered_init simulators focusOnROI) hrun

end Vpsim.Cosim
