import Vpsim.Cosim.Delays
import Vpsim.Cosim.Progress

/-!
# The epochs of both threads

What the order of the requests and the books of the delays say together: each request is handed to each simulator once,
in the order of the epochs and never in the present epoch of the CPU thread, and its delay is handed out when the CPU
thread begins the epoch that is `epochs` later.
-/

namespace Vpsim.Cosim

open Vpsim.Lib

variable {simulators : ℕ} {s : CosimState} {r : Req}

/-- What the memory thread holds is of its epoch or of a later one. -/
theorem RunPoint.Sound.held_epoch {p : RunPoint} (h : p.Sound s) (hr : r ∈ p.held) : s.memEpoch ≤ r.epoch := by
  cases p with
  | putBack k =>
    obtain rfl := List.mem_singleton.1 hr
    exact h.2.1.le
  | lock tmp k | serve tmp k i =>
    obtain rfl := List.mem_singleton.1 hr
    exact (h.1.trans h.2.1.symm).le
  | requeue tmp k =>
    obtain rfl := List.mem_singleton.1 hr
    exact h.1.trans_le h.2.2.1.le
  | top | waitCpu _ | popFirst _ | setEpoch _ | popNext _ | leave _ _ | unlock _ _ | advance => cases hr

/-- When the memory thread has left an epoch, each of its requests was handed out as often as it was pushed. -/
theorem Ordered.count_past (h : Ordered simulators s) {j : ℕ} (hj : j < simulators) (hr : r.epoch < s.memEpoch) :
    s.handled.count (j, r) = s.pushed.count r := by
  have hwaiting : (s.run.heldFor j ++ s.pq).count r = 0 := by
    apply List.count_eq_zero.2
    intro hmem
    have hlow : s.memEpoch ≤ r.epoch := by
      rcases List.mem_append.1 hmem with hheld | hpq
      · exact h.point.held_epoch ((s.run.heldFor_sublist j).subset hheld)
      · exact (h.pq_epoch r hpq).1
    exact absurd hr (Nat.not_lt.2 hlow)
  have hcount := h.conserved j hj r
  rw [hwaiting] at hcount
  exact hcount.symm

/-- A call that covers a delay and uses its half comes `epochs` after it or later. -/
theorem Covering.le {d : Delay} {c : ℕ} (h : Covering s d c) : d.epoch + epochs ≤ c := by
  obtain ⟨hlt, hhalf, _⟩ := h
  change c % 2 = d.epoch % 2 at hhalf
  change d.epoch + 2 ≤ c
  omega

/-- If the call that makes the epoch `epochs` after a delay covers its CPU, no other is the first to do so. -/
theorem due_iff {d : Delay} {h : Handout} (hcpu : d.cpu < size (d.epoch + epochs) s) :
    Due s h d ↔ h.simulator = d.simulator ∧ h.cpu = d.cpu ∧ h.epoch = d.epoch + epochs := by
  have hcovering : Covering s d (d.epoch + epochs) :=
    ⟨Nat.lt_add_of_pos_right Nat.two_pos, Nat.add_mod_right _ _, hcpu⟩
  refine and_congr_right fun _ => and_congr_right fun _ => ⟨fun ⟨hcovers, hfirst⟩ => ?_, fun hepoch => ?_⟩
  · apply le_antisymm _ hcovers.le
    by_contra hlate
    exact hfirst _ (Nat.lt_of_not_le hlate) hcovering
  · rw [hepoch]
    exact ⟨hcovering, fun c hc hcovers => absurd hcovers.le (Nat.not_le_of_lt hc)⟩

/-- The requests and the delays keep to the epochs. Each push of a request is counted where it is: it was handed to the
simulator, the memory thread holds it for this simulator, or it is in the queue. -/
structure InEpochs (simulators : ℕ) (s : CosimState) : Prop where
  pushed : ∀ x ∈ s.handled, x.1 < simulators ∧ x.2 ∈ s.pushed
  once : ∀ j < simulators, ∀ r,
    s.handled.count (j, r) + ((s.run.heldFor j).count r + s.pq.count r) = s.pushed.count r
  past : ∀ j < simulators, ∀ r, r.epoch < s.memEpoch → s.handled.count (j, r) = s.pushed.count r
  sorted : s.handled.Pairwise fun x y =>
    x.2.epoch < y.2.epoch ∨ x.2.epoch = y.2.epoch ∧ x.2.timeStamp ≤ y.2.timeStamp
  left : ∀ x ∈ s.handled, x.2.epoch < s.cpuEpoch
  inserted : s.delays.map (fun d => (d.simulator, d.cpu, d.epoch)) =
    (s.handled.filter (·.2.type = .cpu)).map fun x => (x.1, x.2.id, x.2.epoch)
  total : ∀ h ∈ s.handed, h.time = Entry.total ((s.delays.filter (Due s h)).map Delay.entry)
  onTime : ∀ d ∈ s.delays, d.cpu < size (d.epoch + epochs) s → Over (d.epoch + epochs) s →
    ∃ h ∈ s.handed, h.epoch = d.epoch + epochs ∧ ∀ x ∈ s.handed, Due s x d ↔ x = h

/-- Requests in order and books in order keep to the epochs. -/
theorem Collected.inEpochs (h : Collected simulators s) (hordered : Ordered simulators s) : InEpochs simulators s := by
  have hbooks := h.handedOut hordered
  refine ⟨?_, ?_, ?_, ?_, hordered.handled_epoch, hbooks.inserted, hbooks.time, ?_⟩
  · exact fun x hx => ⟨hordered.handled_lt x hx, hordered.mem_pushed hx⟩
  · intro j hj r
    rw [← List.count_append]
    exact (hordered.conserved j hj r).symm
  · exact fun j hj r hr => hordered.count_past hj hr
  · apply hordered.sorted.imp
    intro x y hxy
    unfold compareReq at hxy
    omega
  · intro d hd hcpu hover
    have hcovering : Covering s d (d.epoch + epochs) :=
      ⟨Nat.lt_add_of_pos_right Nat.two_pos, Nat.add_mod_right _ _, hcpu⟩
    obtain ⟨x, hx, hdue⟩ := hbooks.exists_due d hd _ hcovering hover
    refine ⟨x, hx, ((due_iff hcpu).1 hdue).2.2, fun y hy => ⟨fun hy' => ?_, fun heq => ?_⟩⟩
    · exact hbooks.unique d y hy x hx hy' hdue
    · rw [heq]
      exact hdue

/-- While no call is made, the threads come to an end, and there every request of an epoch that the CPU thread has left
was handed out. -/
def ComesToEnd (simulators : ℕ) (s : CosimState) : Prop :=
  ∀ (more : List Action) (t : CosimState), (∀ a ∈ more, NoCall a) → more.forM (step simulators) s = .ok ⟨⟩ t →
    more.length ≤ rank simulators s ∧ (Stuck simulators t → Settled simulators t)

/-- A request of CPU 0 at time 5. -/
def cpuZero : Req := { emptyReq with timeStamp := 5, size := 4 }

/-- An access of device 2 at time 6. -/
def deviceTwo : Req := { cpuZero with type := .device, id := 2, timeStamp := 6, write := 1, tag := 9 }

/-- A request of CPU 1 at time 3, in the buffer of the access. -/
def cpuOne : Req := { deviceTwo with type := .cpu, id := 1, timeStamp := 3, write := 0 }

/-- The three requests in epoch 0, a call of `FillBiases` for `n` CPUs, what the memory thread does in epoch 0, and another
call of `FillBiases`. -/
def twoCpus (n : ℕ) : List Action :=
  [.call (.notify 0 5 0 0 4), .call (.notifyIo 2 6 1 0 4 9), .call (.notify 1 3 0 0 4), .call (.fillBiases n 0)] ++
    List.replicate (n + 6) .fill ++
    (List.replicate 6 (.run cpuOne 7 false) ++ List.replicate 3 (.run cpuZero 8 false) ++
      List.replicate 6 (.run deviceTwo 0 false)) ++
    .call (.fillBiases n 0) :: List.replicate (n + 6) .fill

end Vpsim.Cosim
