import Vpsim.Cosim.Order
import Vpsim.Lib.Ledger
import Mathlib.Data.List.GetD
import Mathlib.Data.List.Nodup
import Mathlib.Data.Nat.Find

/-!
# The delays of an epoch

While notifications are not halted, `FillBiases` waits until the memory thread is at most one epoch behind. So the
memory thread adds delays to one half of `mTimes` while the other half is handed out.
-/

namespace Vpsim.Cosim

open Vpsim.Lib

/-- A delay as an entry of its CPU and half. -/
def Delay.entry (d : Delay) : Entry (ℕ × ℕ × ℕ) := ⟨(d.simulator, d.cpu, d.epoch % epochs), d.epoch, d.time⟩

/-- What is handed out as a withdrawal. -/
def Handout.entry (h : Handout) : Entry (ℕ × ℕ × ℕ) := ⟨(h.simulator, h.cpu, h.epoch % epochs), h.epoch, h.time⟩

/-- The number of CPUs of the call that makes the epoch of the CPU thread `c`. -/
def size (c : ℕ) (s : CosimState) : ℕ := (0 :: s.sizes).getD c 0

/-- The call that makes the epoch of the CPU thread `c` has handed out to CPU `i` from simulator `j`. -/
def Handed (j i c : ℕ) (s : CosimState) : Prop := ∃ h ∈ s.handed, h.simulator = j ∧ h.cpu = i ∧ h.epoch = c

/-- What the present call of `FillBiases` has handed out at a point. -/
def FillPoint.Done (j i : ℕ) (s : CosimState) : FillPoint → Prop
  | .waitMem _ _ => False
  | .lock _ _ => False
  | .bias _ _ j' i' => i < size s.cpuEpoch s ∧ (j < j' ∨ j = j' ∧ i < i')
  | _ => i < size s.cpuEpoch s

/-- What is known at each point of `FillBiases`. -/
def FillPoint.Sound (s : CosimState) : FillPoint → Prop
  | .waitMem n _ => n = size s.cpuEpoch s ∧ s.cpuEpoch ≤ s.memEpoch + 2
  | .lock n _ => n = size s.cpuEpoch s ∧ s.cpuEpoch ≤ s.memEpoch + 1
  | .bias n _ _ _ => n = size s.cpuEpoch s ∧ s.cpuEpoch ≤ s.memEpoch + 1
  | _ => s.cpuEpoch ≤ s.memEpoch + 1

/-- What is added up and handed out. -/
structure Collected (simulators : ℕ) (s : CosimState) : Prop where
  halted : s.halted = false
  length : s.sizes.length = s.cpuEpoch
  point : s.fill.Sound s
  earlier : ∀ j i c, c < s.cpuEpoch → (Handed j i c s ↔ j < simulators ∧ i < size c s)
  present : ∀ j i, Handed j i s.cpuEpoch s ↔ j < simulators ∧ s.fill.Done j i s
  handed_le : ∀ h ∈ s.handed, h.epoch ≤ s.cpuEpoch ∧ h.epoch ≤ s.memEpoch + 1
  delay_le : ∀ d ∈ s.delays, d.epoch ≤ s.memEpoch ∧ d.epoch < s.cpuEpoch
  nodup : (s.handed.map fun h => (h.simulator, h.cpu, h.epoch)).Nodup
  inserted : s.delays.map (fun d => (d.simulator, d.cpu, d.epoch)) =
    (s.handled.filter (·.2.type = .cpu)).map fun x => (x.1, x.2.id, x.2.epoch)
  balanced : Entry.Balanced (s.delays.map Delay.entry) (s.handed.map Handout.entry) s.mTimes

variable {simulators : ℕ} {s s' : CosimState} {k r : Req}

/-- What was added up and handed out stays when the memory thread goes on. -/
theorem Collected.frame (h : Collected simulators s) {m : ℕ} (hm : s.memEpoch ≤ m) (run : RunPoint) (pq pushed : List Req)
    (mutex : ℕ → Bool) (buffer : Req) (stamp : ℕ) (accomplished : ℕ → ℕ) (refuses : ℕ → Bool) :
    Collected simulators { s with
      memEpoch := m, run := run, pq := pq, pushed := pushed, mutex := mutex, buffer := buffer,
      currentTimeStamp := stamp, accomplished := accomplished, refuses := refuses } := by
  refine ⟨h.halted, h.length, ?_, h.earlier, ?_, ?_, ?_, h.nodup, h.inserted, h.balanced⟩
  · have hpoint := h.point
    change s.fill.Sound _
    cases hfill : s.fill <;> rw [hfill] at hpoint <;> unfold FillPoint.Sound at hpoint ⊢ <;>
      unfold size at hpoint ⊢ <;> grind
  · intro j i
    refine (h.present j i).trans (and_congr_right fun _ => ?_)
    change s.fill.Done j i s ↔ s.fill.Done j i _
    cases s.fill <;> exact Iff.rfl
  · exact fun x hx => ⟨(h.handed_le x hx).1, (h.handed_le x hx).2.trans (Nat.succ_le_succ hm)⟩
  · exact fun d hd => ⟨(h.delay_le d hd).1.trans hm, (h.delay_le d hd).2⟩

/-- The epoch of the memory thread grows. -/
theorem RunStep.memEpoch_le (h : Ordered simulators s) (hstep : RunStep simulators s s') : s.memEpoch ≤ s'.memEpoch := by
  have hpoint := h.point
  cases hstep with
  | setEpoch epoch hrun =>
    rw [hrun] at hpoint
    exact hpoint.1.le
  | leave tmp epoch hrun =>
    rw [hrun] at hpoint
    exact hpoint.1.trans_le hpoint.2.2.1.le
  | serve tmp k i delay refuses hrun hlt hroom =>
    obtain ⟨times, delays, accomplished, full, hhandle⟩ := handle_frame i delay refuses k s
    rw [hhandle]
  | advance hrun => exact Nat.le_succ _
  | _ => exact le_rfl

/-- Apart from the completion queues, a simulator that adds no delay changes nothing. -/
theorem exists_insertIo (k : Req) (refuses : Bool) (s : CosimState) :
    ∃ accomplished full, (if k.type = .device then s.insertIo k refuses else s) =
      { s with accomplished := accomplished, refuses := full } := by
  split
  · exact ⟨_, _, rfl⟩
  · exact ⟨_, _, rfl⟩

/-- Handing a request to a simulator keeps the books: the half that its delay goes to is not handed out at this time. -/
theorem Collected.handle (h : Collected simulators s) (hk : k.epoch = s.memEpoch) (hlt : s.memEpoch < s.cpuEpoch)
    (i delay : ℕ) (refuses : Bool) : Collected simulators (s.handle i k delay refuses) := by
  unfold CosimState.handle
  by_cases htype : k.type = .cpu
  · rw [if_pos htype]
    have hinserted : (s.delays ++ [(⟨i, k.id, s.memEpoch, delay⟩ : Delay)]).map
        (fun d => (d.simulator, d.cpu, d.epoch)) =
        ((s.handled ++ [(i, k)]).filter (·.2.type = .cpu)).map fun x => (x.1, x.2.id, x.2.epoch) := by
      have hfilter : [(i, k)].filter (·.2.type = .cpu) = [(i, k)] := List.filter_cons_of_pos (decide_eq_true htype)
      rw [List.map_append, h.inserted, List.filter_append, List.map_append, hfilter]
      congr 1
      change [(i, k.id, s.memEpoch)] = [(i, k.id, k.epoch)]
      rw [hk]
    have hbalanced : Entry.Balanced ((s.delays ++ [(⟨i, k.id, s.memEpoch, delay⟩ : Delay)]).map Delay.entry)
        (s.handed.map Handout.entry) (s.insert i k delay).mTimes := by
      rw [List.map_append]
      apply h.balanced.deposit (e := Delay.entry ⟨i, k.id, s.memEpoch, delay⟩)
      intro w hw hcovers
      obtain ⟨x, hx, rfl⟩ := List.mem_map.1 hw
      have hle := (h.handed_le x hx).2
      have hsame : x.epoch % 2 = s.memEpoch % 2 := (Prod.ext_iff.1 (Prod.ext_iff.1 hcovers.1).2).2
      have hbehind : s.memEpoch < x.epoch := hcovers.2
      omega
    refine ⟨h.halted, h.length, ?_, h.earlier, ?_, h.handed_le, ?_, h.nodup, hinserted, hbalanced⟩
    · have hpoint := h.point
      change s.fill.Sound _
      cases hfill : s.fill <;> rw [hfill] at hpoint <;> exact hpoint
    · intro j' i'
      refine (h.present j' i').trans (and_congr_right fun _ => ?_)
      change s.fill.Done j' i' s ↔ s.fill.Done j' i' _
      cases s.fill <;> exact Iff.rfl
    · intro d hd
      rcases List.mem_append.1 hd with hd | hd
      · exact h.delay_le d hd
      · rw [List.mem_singleton.1 hd]
        exact ⟨le_rfl, hlt⟩
  · obtain ⟨accomplished, full, hio⟩ := exists_insertIo k refuses s
    rw [if_neg htype, hio]
    have hinserted : s.delays.map (fun d => (d.simulator, d.cpu, d.epoch)) =
        ((s.handled ++ [(i, k)]).filter (·.2.type = .cpu)).map fun x => (x.1, x.2.id, x.2.epoch) := by
      have hfilter : [(i, k)].filter (·.2.type = .cpu) = [] := List.filter_cons_of_neg (by rwa [decide_eq_true_eq])
      rw [List.filter_append, hfilter, List.append_nil]
      exact h.inserted
    refine ⟨h.halted, h.length, ?_, h.earlier, ?_, h.handed_le, h.delay_le, h.nodup, hinserted, h.balanced⟩
    · have hpoint := h.point
      change s.fill.Sound _
      cases hfill : s.fill <;> rw [hfill] at hpoint <;> exact hpoint
    · intro j' i'
      refine (h.present j' i').trans (and_congr_right fun _ => ?_)
      change s.fill.Done j' i' s ↔ s.fill.Done j' i' _
      cases s.fill <;> exact Iff.rfl

/-- Each step of the memory thread keeps the books. -/
theorem Collected.runStep (h : Collected simulators s) (hordered : Ordered simulators s)
    (hstep : RunStep simulators s s') : Collected simulators s' := by
  have hle := hstep.memEpoch_le hordered
  cases hstep with
  | serve tmp k i delay refuses hrun hlt hroom =>
    have hpoint := hordered.point
    rw [hrun] at hpoint
    have hhandle := h.handle (hpoint.2.1.trans hpoint.1.symm) (hpoint.1.trans_lt hpoint.2.2.1) i delay refuses
    exact hhandle.frame le_rfl _ _ _ _ _ _ _ _
  | _ => exact h.frame hle _ _ _ _ _ _ _ _

/-- `FillBiases` goes on without handing out anything. -/
theorem Collected.goTo (h : Collected simulators s) (p : FillPoint) (hpoint : p.Sound s)
    (hdone : ∀ j i, j < simulators → (s.fill.Done j i s ↔ p.Done j i s)) (mutex : ℕ → Bool) (epochScTime : ℕ) :
    Collected simulators { s with fill := p, mutex := mutex, epochScTime := epochScTime } := by
  refine ⟨h.halted, h.length, ?_, h.earlier, ?_, h.handed_le, h.delay_le, h.nodup, h.inserted, h.balanced⟩
  · change p.Sound _
    cases p <;> exact hpoint
  · intro j i
    refine (h.present j i).trans (and_congr_right fun hj => (hdone j i hj).trans ?_)
    change p.Done j i s ↔ p.Done j i _
    cases p <;> exact Iff.rfl

/-- Handing out to a CPU keeps the books: every delay of the half was added before. -/
theorem Collected.handOut (h : Collected simulators s) {n now j i : ℕ} (hfill : s.fill = .bias n now j i)
    (hj : j < simulators) (hi : i < n) :
    Collected simulators { s.handOut j i with fill := .bias n now j (i + 1) } := by
  have hpoint := h.point
  have hpresent := h.present
  rw [hfill] at hpoint hpresent
  obtain ⟨hn, hnear⟩ := hpoint
  have hnew : ¬ Handed j i s.cpuEpoch s := by
    intro hhanded
    obtain ⟨-, -, hbefore⟩ := (hpresent j i).1 hhanded
    omega
  have hhanded (j' i' c : ℕ) : Handed j' i' c { s.handOut j i with fill := .bias n now j (i + 1) } ↔
      Handed j' i' c s ∨ j = j' ∧ i = i' ∧ s.cpuEpoch = c := by
    unfold Handed CosimState.handOut
    dsimp only
    constructor
    · intro ⟨x, hx, hkey⟩
      rcases List.mem_append.1 hx with hx | hx
      · exact .inl ⟨x, hx, hkey⟩
      · rw [List.mem_singleton.1 hx] at hkey
        exact .inr hkey
    · intro hor
      rcases hor with ⟨x, hx, hkey⟩ | hkey
      · exact ⟨x, List.mem_append_left _ hx, hkey⟩
      · exact ⟨_, List.mem_append_right _ (List.mem_singleton_self _), hkey⟩
  refine ⟨h.halted, h.length, ⟨hn, hnear⟩, ?_, ?_, ?_, h.delay_le, ?_, h.inserted, ?_⟩
  · intro j' i' c hc
    rw [hhanded]
    refine Iff.trans ?_ (h.earlier j' i' c hc)
    exact or_iff_left fun hkey => hc.ne hkey.2.2.symm
  · intro j' i'
    rw [hhanded]
    change _ ∨ j = j' ∧ i = i' ∧ s.cpuEpoch = s.cpuEpoch ↔
      j' < simulators ∧ i' < size s.cpuEpoch s ∧ (j' < j ∨ j' = j ∧ i' < i + 1)
    have hbefore : Handed j' i' s.cpuEpoch s ↔
        j' < simulators ∧ i' < size s.cpuEpoch s ∧ (j' < j ∨ j' = j ∧ i' < i) := hpresent j' i'
    change Handed j' i' s.cpuEpoch s ∨ _ ↔ _
    rw [hbefore, ← hn]
    omega
  · intro x hx
    rcases List.mem_append.1 hx with hx | hx
    · exact h.handed_le x hx
    · rw [List.mem_singleton.1 hx]
      exact ⟨le_rfl, hnear⟩
  · change ((s.handed ++ [_]).map _).Nodup
    rw [List.map_append, List.nodup_append]
    refine ⟨h.nodup, List.nodup_singleton _, ?_⟩
    intro key hkey key' hkey' heq
    obtain ⟨x, hx, rfl⟩ := List.mem_map.1 hkey
    rw [List.map_singleton, List.mem_singleton] at hkey'
    rw [hkey'] at heq
    exact hnew ⟨x, hx, by grind, by grind, by grind⟩
  · change Entry.Balanced _ ((s.handed ++ [_]).map Handout.entry) _
    rw [List.map_append]
    apply h.balanced.withdraw (a := (j, i, s.cpuEpoch % epochs)) (t := s.cpuEpoch)
    · intro e he _
      obtain ⟨d, hd, rfl⟩ := List.mem_map.1 he
      exact (h.delay_le d hd).2
    · intro w hw haccount
      obtain ⟨x, hx, rfl⟩ := List.mem_map.1 hw
      apply lt_of_le_of_ne (h.handed_le x hx).1
      intro hepoch
      have hsimulator := (Prod.ext_iff.1 haccount).1
      have hcpu := (Prod.ext_iff.1 (Prod.ext_iff.1 haccount).2).1
      exact hnew ⟨x, hx, hsimulator, hcpu, hepoch⟩

/-- Each step of `FillBiases` keeps the books. -/
theorem Collected.fillStep (h : Collected simulators s) (hstep : FillStep simulators s s') : Collected simulators s' := by
  have hpoint := h.point
  cases hstep with
  | waitMem n now hfill hnear =>
    rw [hfill] at hpoint
    refine h.goTo (.lock n now) ⟨hpoint.1, Nat.lt_succ_iff.1 hnear⟩ (fun j i _ => ?_) _ _
    rw [hfill]
    exact Iff.rfl
  | lock n now hfill hfree =>
    rw [hfill] at hpoint
    refine h.goTo (.bias n now 0 0) hpoint (fun j i _ => ?_) _ _
    rw [hfill]
    change False ↔ i < size s.cpuEpoch s ∧ (j < 0 ∨ j = 0 ∧ i < 0)
    exact ⟨False.elim, fun hdone => by omega⟩
  | bias n now j i hfill hj hi => exact h.handOut hfill hj hi
  | nextSimulator n now j i hfill hj hi =>
    rw [hfill] at hpoint
    refine h.goTo (.bias n now (j + 1) 0) hpoint (fun j' i' _ => ?_) _ _
    rw [hfill]
    change i' < size s.cpuEpoch s ∧ (j' < j ∨ j' = j ∧ i' < i) ↔
      i' < size s.cpuEpoch s ∧ (j' < j + 1 ∨ j' = j + 1 ∧ i' < 0)
    rw [← hpoint.1]
    omega
  | biased n now j i hfill hj =>
    rw [hfill] at hpoint
    refine h.goTo (.unlock now) hpoint.2 (fun j' i' hj' => ?_) _ _
    rw [hfill]
    change i' < size s.cpuEpoch s ∧ (j' < j ∨ j' = j ∧ i' < i) ↔ i' < size s.cpuEpoch s
    omega
  | unlock now hfill =>
    rw [hfill] at hpoint
    refine h.goTo (.setTime now) hpoint (fun j i _ => ?_) _ _
    rw [hfill]
    exact Iff.rfl
  | setTime now hfill =>
    rw [hfill] at hpoint
    refine h.goTo .idle hpoint (fun j i _ => ?_) _ _
    rw [hfill]
    exact Iff.rfl

/-- A call of `FillBiases` has handed out nothing when it begins. -/
theorem Collected.fillBiases (h : Collected simulators s) (hidle : s.fill = .idle) (n now : ℕ) :
    Collected simulators (s.fillBiases n now) := by
  have hpoint := h.point
  have hpresent := h.present
  rw [hidle] at hpoint hpresent
  have hsize {c : ℕ} (hc : c ≤ s.cpuEpoch) : size c (s.fillBiases n now) = size c s := by
    have hlength := h.length
    change (0 :: (s.sizes ++ [n])).getD c 0 = (0 :: s.sizes).getD c 0
    rw [← List.cons_append, List.getD_append _ _ _ _ (by rw [List.length_cons]; omega)]
  have hlast : size (s.cpuEpoch + 1) (s.fillBiases n now) = n := by
    change (0 :: (s.sizes ++ [n])).getD (s.cpuEpoch + 1) 0 = n
    rw [← h.length, List.getD_cons_succ, List.getD_append_right _ _ _ _ le_rfl, Nat.sub_self]
    rfl
  have hfill : (s.fillBiases n now).fill = .waitMem n now := by
    unfold CosimState.fillBiases
    dsimp only
    rw [h.halted]
    rfl
  refine ⟨h.halted, ?_, ?_, ?_, ?_, ?_, ?_, h.nodup, h.inserted, h.balanced⟩
  · change (s.sizes ++ [n]).length = s.cpuEpoch + 1
    rw [List.length_append, h.length]
    rfl
  · rw [hfill]
    exact ⟨hlast.symm, Nat.succ_le_succ hpoint⟩
  · intro j i c hc
    change Handed j i c s ↔ _
    rcases Nat.lt_succ_iff_lt_or_eq.1 hc with hc | rfl
    · rw [hsize hc.le]
      exact h.earlier j i c hc
    · rw [hsize le_rfl]
      exact hpresent j i
  · intro j i
    rw [hfill]
    refine ⟨fun ⟨x, hx, _, _, hepoch⟩ => ?_, fun hdone => hdone.2.elim⟩
    have hle := (h.handed_le x hx).1
    rw [hepoch] at hle
    exact absurd hle (Nat.not_succ_le_self _)
  · exact fun x hx => ⟨(h.handed_le x hx).1.trans (Nat.le_succ _), (h.handed_le x hx).2⟩
  · exact fun d hd => ⟨(h.delay_le d hd).1, (h.delay_le d hd).2.trans (Nat.lt_succ_self _)⟩

/-- A step that is no command to start or end a capture. -/
def NoCommand : Action → Prop
  | .call (.notifySesamCommand _ _) => False
  | _ => True

instance : (a : Action) → Decidable (NoCommand a)
  | .call (.notifySesamCommand _ _) => isFalse not_false
  | .call (.notify _ _ _ _ _) => isTrue trivial
  | .call (.notifyFetchMiss _ _ _) => isTrue trivial
  | .call (.notifyIo _ _ _ _ _ _) => isTrue trivial
  | .call (.fillBiases _ _) => isTrue trivial
  | .getDelay _ _ => isTrue trivial
  | .fill => isTrue trivial
  | .run _ _ _ => isTrue trivial

/-- A call that is no command keeps the books, since notifications stay on. -/
theorem Collected.call (h : Collected simulators s) (hidle : s.fill = .idle) {c : Call} (hc : NoCommand (.call c)) :
    Collected simulators (c.after s) := by
  have hproceed : ¬ s.halted = true := by
    rw [h.halted]
    exact nofun
  cases c with
  | notify cpu exec write phys size =>
    change Collected simulators (s.notify cpu exec write phys size)
    unfold CosimState.notify
    rw [if_neg hproceed]
    exact h.frame le_rfl _ _ _ _ _ _ _ _
  | notifyFetchMiss cpu phys size =>
    change Collected simulators (s.notifyFetchMiss cpu phys size)
    unfold CosimState.notifyFetchMiss
    rw [if_neg hproceed]
    exact h.frame le_rfl _ _ _ _ _ _ _ _
  | notifyIo device exec write phys size tag =>
    change Collected simulators (s.notifyIo device exec write phys size tag)
    unfold CosimState.notifyIo
    rw [if_neg hproceed]
    exact h.frame le_rfl _ _ _ _ _ _ _ _
  | notifySesamCommand counter start => exact hc.elim
  | fillBiases n now => exact h.fillBiases hidle n now

/-- Each step of either thread keeps the books. -/
theorem Collected.step {a : Action} (h : Collected simulators s) (hordered : Ordered simulators s)
    (hstep : Step simulators s a s') (ha : NoCommand a) : Collected simulators s' := by
  cases hstep with
  | call c hidle => exact h.call hidle ha
  | getDelay device refuses => exact h.frame le_rfl _ _ _ _ _ _ _ _
  | fill _ hfill => exact h.fillStep hfill
  | run k delay refuses _ hrun => exact h.runStep hordered hrun

/-- At the start, with notifications on, nothing was added or handed out. -/
theorem collected_init (simulators : ℕ) : Collected simulators (init false) := by
  have hnone (j i c : ℕ) : ¬ Handed j i c (init false) := fun ⟨_, hx, _⟩ => nomatch hx
  refine ⟨rfl, rfl, Nat.zero_le _, ?_, ?_, nofun, nofun, List.nodup_nil, rfl, Entry.balanced_nil⟩
  · exact fun j i c hc => absurd hc (Nat.not_lt_zero c)
  · exact fun j i => iff_of_false (hnone j i 0) fun hdone => Nat.not_lt_zero i hdone.2

/-! ## Which call hands out a delay -/

/-- The call that makes the epoch `c` covers a CPU and uses the half of the epoch of a delay. -/
def Covering (s : CosimState) (d : Delay) (c : ℕ) : Prop :=
  d.epoch < c ∧ c % epochs = d.epoch % epochs ∧ d.cpu < size c s

instance (s : CosimState) (d : Delay) (c : ℕ) : Decidable (Covering s d c) := inferInstanceAs (Decidable (_ ∧ _))

/-- What is handed out to the CPU of a delay, by the first call that covers it. -/
def Due (s : CosimState) (h : Handout) (d : Delay) : Prop :=
  h.simulator = d.simulator ∧ h.cpu = d.cpu ∧ Covering s d h.epoch ∧ ∀ c < h.epoch, ¬ Covering s d c

instance (s : CosimState) (h : Handout) (d : Delay) : Decidable (Due s h d) := inferInstanceAs (Decidable (_ ∧ _))

/-- A delay of this simulator, CPU and half that no call has handed out. -/
def Waits (s : CosimState) (simulator cpu half : ℕ) (d : Delay) : Prop :=
  d.simulator = simulator ∧ d.cpu = cpu ∧ d.epoch % epochs = half ∧ ∀ h ∈ s.handed, ¬ Due s h d

instance (s : CosimState) (simulator cpu half : ℕ) (d : Delay) : Decidable (Waits s simulator cpu half d) :=
  inferInstanceAs (Decidable (_ ∧ _))

/-- The call that makes the epoch `c` is over. -/
def Over (c : ℕ) (s : CosimState) : Prop := c < s.cpuEpoch ∨ c = s.cpuEpoch ∧ s.fill = .idle

/-- Each delay is handed out once, by the first call after it that covers its CPU and uses its half, and waits in that
half of `mTimes` until then. -/
structure HandedOut (simulators : ℕ) (s : CosimState) : Prop where
  calls : ∀ j i c, Over c s → (Handed j i c s ↔ j < simulators ∧ i < size c s)
  time : ∀ h ∈ s.handed, h.time = Entry.total ((s.delays.filter (Due s h)).map Delay.entry)
  unique : ∀ d, ∀ h ∈ s.handed, ∀ h' ∈ s.handed, Due s h d → Due s h' d → h = h'
  exists_due : ∀ d ∈ s.delays, ∀ c, Covering s d c → Over c s → ∃ h ∈ s.handed, Due s h d
  waiting : ∀ j i half,
    s.mTimes (j, i, half) = Entry.total ((s.delays.filter (Waits s j i half)).map Delay.entry)
  inserted : s.delays.map (fun d => (d.simulator, d.cpu, d.epoch)) =
    (s.handled.filter (·.2.type = .cpu)).map fun x => (x.1, x.2.id, x.2.epoch)

/-- What was handed out belongs to a call. -/
theorem Collected.handed_lt (h : Collected simulators s) {x : Handout} (hx : x ∈ s.handed) :
    x.simulator < simulators ∧ x.cpu < size x.epoch s := by
  have hhanded : Handed x.simulator x.cpu x.epoch s := ⟨x, hx, rfl, rfl, rfl⟩
  rcases (h.handed_le x hx).1.lt_or_eq with hlt | heq
  · exact (h.earlier _ _ _ hlt).1 hhanded
  · rw [heq] at hhanded ⊢
    obtain ⟨hsimulator, hdone⟩ := (h.present _ _).1 hhanded
    refine ⟨hsimulator, ?_⟩
    cases hfill : s.fill with
    | waitMem n now | lock n now =>
      rw [hfill] at hdone
      exact hdone.elim
    | bias n now j i =>
      rw [hfill] at hdone
      exact hdone.1
    | idle | unlock now | setTime now =>
      rw [hfill] at hdone
      exact hdone

/-- The first withdrawal after a delay is that of the first call that covers it. -/
theorem Collected.goesTo_iff (h : Collected simulators s) {x : Handout} (hx : x ∈ s.handed) (d : Delay) :
    Entry.GoesTo x.entry (s.handed.map Handout.entry) d.entry ↔ Due s x d := by
  have hlt := h.handed_lt hx
  constructor
  · intro ⟨⟨haccount, hafter⟩, hfirst⟩
    have hsimulator : x.simulator = d.simulator := (Prod.ext_iff.1 haccount).1
    have hcpu : x.cpu = d.cpu := (Prod.ext_iff.1 (Prod.ext_iff.1 haccount).2).1
    have hhalf : x.epoch % epochs = d.epoch % epochs := (Prod.ext_iff.1 (Prod.ext_iff.1 haccount).2).2
    refine ⟨hsimulator, hcpu, ⟨hafter, hhalf, hcpu ▸ hlt.2⟩, fun c hc hcovering => ?_⟩
    have hover : c < s.cpuEpoch := hc.trans_le (h.handed_le x hx).1
    obtain ⟨y, hy, hyd⟩ := (h.earlier d.simulator d.cpu c hover).2 ⟨hsimulator ▸ hlt.1, hcovering.2.2⟩
    have hcovers : Entry.Covers y.entry d.entry := by
      constructor
      · change (y.simulator, y.cpu, y.epoch % epochs) = (d.simulator, d.cpu, d.epoch % epochs)
        rw [hyd.1, hyd.2.1, hyd.2.2, hcovering.2.1]
      · change d.epoch < y.epoch
        rw [hyd.2.2]
        exact hcovering.1
    have hle : x.epoch ≤ y.epoch := hfirst y.entry (List.mem_map_of_mem hy) hcovers
    rw [hyd.2.2] at hle
    exact absurd hle (Nat.not_le_of_lt hc)
  · intro ⟨hsimulator, hcpu, hcovering, hnone⟩
    refine ⟨⟨?_, hcovering.1⟩, fun w hw hcovers => ?_⟩
    · change (x.simulator, x.cpu, x.epoch % epochs) = (d.simulator, d.cpu, d.epoch % epochs)
      rw [hsimulator, hcpu, hcovering.2.1]
    · obtain ⟨y, hy, rfl⟩ := List.mem_map.1 hw
      by_contra hlate
      have hylt := h.handed_lt hy
      have haccount := hcovers.1
      have hycpu : y.cpu = d.cpu := (Prod.ext_iff.1 (Prod.ext_iff.1 haccount).2).1
      have hyhalf : y.epoch % epochs = d.epoch % epochs := (Prod.ext_iff.1 (Prod.ext_iff.1 haccount).2).2
      exact hnone y.epoch (Nat.lt_of_not_le hlate) ⟨hcovers.2, hyhalf, hycpu ▸ hylt.2⟩

/-- What remains of an account is what no call has handed out. -/
theorem Collected.remains_iff (h : Collected simulators s) (j i half : ℕ) (d : Delay) :
    Entry.Remains (j, i, half) (s.handed.map Handout.entry) d.entry ↔ Waits s j i half d := by
  rw [Entry.remains_iff]
  constructor
  · intro ⟨haccount, hnone⟩
    refine ⟨(Prod.ext_iff.1 haccount).1, (Prod.ext_iff.1 (Prod.ext_iff.1 haccount).2).1,
      (Prod.ext_iff.1 (Prod.ext_iff.1 haccount).2).2, fun x hx hdue => ?_⟩
    exact hnone x.entry (List.mem_map_of_mem hx) ((h.goesTo_iff hx d).2 hdue)
  · intro ⟨hsimulator, hcpu, hhalf, hnone⟩
    refine ⟨?_, fun w hw hgoes => ?_⟩
    · change (d.simulator, d.cpu, d.epoch % epochs) = _
      rw [hsimulator, hcpu, hhalf]
    · obtain ⟨x, hx, rfl⟩ := List.mem_map.1 hw
      exact hnone x hx ((h.goesTo_iff hx d).1 hgoes)

/-- A call that is over handed out everything it covers. -/
theorem Collected.handed_of_over (h : Collected simulators s) {c : ℕ} (hover : Over c s) (j i : ℕ) :
    Handed j i c s ↔ j < simulators ∧ i < size c s := by
  rcases hover with hlt | ⟨rfl, hidle⟩
  · exact h.earlier j i c hlt
  · have hpresent := h.present j i
    rw [hidle] at hpresent
    exact hpresent

/-- Books that are kept in order hand out each delay once. -/
theorem Collected.handedOut (h : Collected simulators s) (hordered : Ordered simulators s) : HandedOut simulators s := by
  refine ⟨fun j i c hover => h.handed_of_over hover j i, ?_, ?_, ?_, ?_, h.inserted⟩
  · intro x hx
    have hamount : x.time = Entry.total ((s.delays.map Delay.entry).filter
        (Entry.GoesTo x.entry (s.handed.map Handout.entry))) := h.balanced.amount _ (List.mem_map_of_mem hx)
    rw [hamount, List.filter_map]
    congr 2
    apply List.filter_congr
    exact fun d _ => decide_eq_decide.2 (h.goesTo_iff hx d)
  · intro d x hx y hy hdx hdy
    have hepoch : x.epoch = y.epoch := by
      rcases lt_trichotomy x.epoch y.epoch with hlt | heq | hlt
      · exact absurd hdx.2.2.1 (hdy.2.2.2 _ hlt)
      · exact heq
      · exact absurd hdy.2.2.1 (hdx.2.2.2 _ hlt)
    apply List.inj_on_of_nodup_map h.nodup hx hy
    rw [hdx.1, hdx.2.1, hdy.1, hdy.2.1, hepoch]
  · intro d hd c hcovering hover
    have hexists : ∃ c, Covering s d c := ⟨c, hcovering⟩
    have hle : Nat.find hexists ≤ c := Nat.find_min' hexists hcovering
    have hfirst : Over (Nat.find hexists) s := by
      unfold Over at hover ⊢
      rcases hle.lt_or_eq with hlt | heq
      · rcases hover with hc | ⟨rfl, _⟩
        · exact .inl (hlt.trans hc)
        · exact .inl hlt
      · rwa [heq]
    have hsimulator : d.simulator < simulators := by
      have hkey : (d.simulator, d.cpu, d.epoch) ∈ s.delays.map fun d => (d.simulator, d.cpu, d.epoch) :=
        List.mem_map_of_mem hd
      rw [h.inserted] at hkey
      obtain ⟨x, hx, heq⟩ := List.mem_map.1 hkey
      have hfst : x.1 = d.simulator := (Prod.ext_iff.1 heq).1
      rw [← hfst]
      exact hordered.handled_lt x (List.mem_of_mem_filter hx)
    have hspec := Nat.find_spec hexists
    obtain ⟨x, hx, hxd⟩ := (h.handed_of_over hfirst d.simulator d.cpu).2 ⟨hsimulator, hspec.2.2⟩
    refine ⟨x, hx, hxd.1, hxd.2.1, hxd.2.2.symm ▸ hspec, fun c hc => ?_⟩
    rw [hxd.2.2] at hc
    exact Nat.find_min hexists hc
  · intro j i half
    rw [h.balanced.balance, List.filter_map]
    congr 2
    apply List.filter_congr
    exact fun d _ => decide_eq_decide.2 (h.remains_iff j i half d)

/-- While no capture is started or ended, the books are kept over every run. -/
theorem collected_of_run {acts : List Action} (hacts : ∀ a ∈ acts, NoCommand a)
    (hrun : acts.forM (step simulators) (init false) = .ok ⟨⟩ s) : Collected simulators s := by
  have hstep (u : CosimState) (a : Action) (ha : a ∈ acts) (v : CosimState)
      (hu : Ordered simulators u ∧ Collected simulators u) (hop : step simulators a u = .ok ⟨⟩ v) :
      Ordered simulators v ∧ Collected simulators v := by
    have hcases := step_cases hop
    exact ⟨hu.1.step hcases, hu.2.step hu.1 hcases (hacts a ha)⟩
  exact (of_forM_ok hstep ⟨ordered_init simulators false, collected_init simulators⟩ hrun).2

/-- While no capture is started or ended, in every state of a run each delay was added for a request of its epoch and is
handed out once, by the first later call of `FillBiases` that covers its CPU and uses its half. Until then it waits in
this half. Notifications are on from the start, and times are those before the conversion of `fillBiases`. -/
theorem handed_out_throughout {acts : List Action} (hacts : ∀ a ∈ acts, NoCommand a) :
    Throughout (step simulators) (HandedOut simulators) (init false) acts := by
  intro done rest t hsplit hrun
  subst hsplit
  have hcollected := collected_of_run (fun a ha => hacts a (List.mem_append_left _ ha)) hrun
  exact hcollected.handedOut (ordered_of_run hrun)

/-- A request of CPU 0, its epoch in both threads with a delay of 7, and the next call of `FillBiases`. -/
def twoEpochs : List Action :=
  .call (.notify 0 5 0 0 4) :: .call (.fillBiases 1 0) :: List.replicate 7 .fill ++
    List.replicate 9 (.run { emptyReq with timeStamp := 5, size := 4 } 7 false) ++
      .call (.fillBiases 1 0) :: List.replicate 7 .fill

/-- The second call hands out the delay. -/
theorem handed_out_two_epochs : Throughout (step 1) (HandedOut 1) (init false) twoEpochs ∧
    ((endState (twoEpochs.forM (step 1) (init false))).handed.map fun h => (h.epoch, h.time)) = [(1, 0), (2, 7)] :=
  ⟨handed_out_throughout (by decide +kernel), by decide +kernel⟩

end Vpsim.Cosim
