import Vpsim.Cosim.Order

/-!
# Capture markers

A command to start or end a capture goes through the queue among the requests of its epoch. It is placed by its time
stamp alone: that of a start is one less than the time of the epoch, that of an end one more than the largest quantum
after it, both in 64 bits.
-/

namespace Vpsim.Cosim

open Vpsim.Lib

/-- The request of a CPU or a device. -/
def Req.IsRequest (r : Req) : Prop := r.type = .cpu ∨ r.type = .device

/-- The command `StartCapture`. -/
def Req.IsStart (c : Req) : Prop := c.type = .sesamCommand ∧ c.write ≠ 0

/-- The command `EndCapture`. -/
def Req.IsEnd (c : Req) : Prop := c.type = .sesamCommand ∧ c.write = 0

instance (r : Req) : Decidable r.IsRequest := inferInstanceAs (Decidable (_ ∨ _))

/-- The commands bracket their epoch: when a request is handed out, every start command of its epoch has been, and
when an end command is, every request of its epoch has been. -/
structure Bracketed (simulators : ℕ) (s : CosimState) : Prop where
  start_first : ∀ before i r after, s.handled = before ++ (i, r) :: after → r.IsRequest →
    ∀ c, c.IsStart → c.epoch = r.epoch → ∀ j < simulators, before.count (j, c) = s.pushed.count c
  end_last : ∀ before i c after, s.handled = before ++ (i, c) :: after → c.IsEnd →
    ∀ r, r.IsRequest → r.epoch = c.epoch → ∀ j < simulators, before.count (j, r) = s.pushed.count r

/-- A command was called in the present epoch of the CPU thread. -/
def Called (start : Bool) (s : CosimState) : Prop :=
  ∃ c ∈ s.pushed, c.type = .sesamCommand ∧ c.epoch = s.cpuEpoch ∧ c.write = start.toNat

instance (start : Bool) (s : CosimState) : Decidable (Called start s) := inferInstanceAs (Decidable (∃ c ∈ _, _))

/-- A time stamp is behind that of a start command and before that of an end command, where there is one. -/
def Fits (stamp : ℕ) (s : CosimState) : Prop :=
  (Called true s → s.commandStamp true < stamp) ∧ (Called false s → stamp < s.commandStamp false)

instance (stamp : ℕ) (s : CosimState) : Decidable (Fits stamp s) := inferInstanceAs (Decidable (_ ∧ _))

/-- The requests of the present epoch are on the right side of a command. -/
def FitsCommand (start : Bool) (s : CosimState) : Prop :=
  ∀ r ∈ s.pushed, r.IsRequest → r.epoch = s.cpuEpoch →
    if start then s.commandStamp true < r.timeStamp else r.timeStamp < s.commandStamp false

/-- A step keeps the commands around the requests of their epoch. -/
def FitsAction (s : CosimState) : Action → Prop
  | .call (.notify _ exec _ _ _) => s.halted = false → Fits (s.stamp exec) s
  | .call (.notifyFetchMiss _ _ _) => s.halted = false → Fits s.currentTimeStamp s
  | .call (.notifyIo _ exec _ _ _ _) => s.halted = false → Fits (s.stamp exec) s
  | .call (.notifySesamCommand _ start) => FitsCommand start s
  | _ => True

variable {simulators : ℕ} {s s' : CosimState} {c r : Req} {acts : List Action}

/-- What was pushed has its epoch, and commands their time stamps. -/
structure Stamped (s : CosimState) : Prop where
  epoch_le : ∀ r ∈ s.pushed, r.epoch ≤ s.cpuEpoch
  epoch_lt : s.fill ≠ .idle → ∀ r ∈ s.pushed, r.epoch < s.cpuEpoch
  command : ∀ c ∈ s.pushed, c.type = .sesamCommand → c.epoch = s.cpuEpoch →
    ∃ start, c.write = start.toNat ∧ c.timeStamp = s.commandStamp start
  apart : ∀ c ∈ s.pushed, ∀ r ∈ s.pushed, r.IsRequest → c.epoch = r.epoch →
    (c.IsStart → c.timeStamp < r.timeStamp) ∧ (c.IsEnd → r.timeStamp < c.timeStamp)

/-- Pushing a request on the right side of the commands keeps the time stamps apart. -/
theorem Stamped.push_request (h : Stamped s) (hidle : s.fill = .idle) (hr : r.IsRequest) (hepoch : r.epoch = s.cpuEpoch)
    (hfits : Fits r.timeStamp s) : Stamped (s.push r) := by
  have hnot : r.type ≠ .sesamCommand := by
    intro htype
    rcases hr with hr | hr <;> rw [hr] at htype <;> cases htype
  refine ⟨?_, fun hfill => absurd hidle hfill, ?_, ?_⟩
  · intro r' hr'
    rcases List.mem_append.1 hr' with hr' | hr'
    · exact h.epoch_le r' hr'
    · rw [List.mem_singleton.1 hr']
      exact hepoch.le
  · intro c hc htype hc'
    rcases List.mem_append.1 hc with hc | hc
    · exact h.command c hc htype hc'
    · rw [List.mem_singleton.1 hc] at htype
      exact absurd htype hnot
  · intro c hc r' hr' hrequest heq
    rcases List.mem_append.1 hc with hc | hc
    · rcases List.mem_append.1 hr' with hr' | hr'
      · exact h.apart c hc r' hr' hrequest heq
      · rw [List.mem_singleton.1 hr'] at heq ⊢
        refine ⟨fun hstart => ?_, fun hend => ?_⟩
        · obtain ⟨start, hwrite, hstamp⟩ := h.command c hc hstart.1 (heq.trans hepoch)
          cases start with
          | true =>
            rw [hstamp]
            exact hfits.1 ⟨c, hc, hstart.1, heq.trans hepoch, hwrite⟩
          | false => exact absurd hwrite hstart.2
        · obtain ⟨start, hwrite, hstamp⟩ := h.command c hc hend.1 (heq.trans hepoch)
          cases start with
          | true => exact absurd (hend.2.symm.trans hwrite) (by decide)
          | false =>
            rw [hstamp]
            exact hfits.2 ⟨c, hc, hend.1, heq.trans hepoch, hwrite⟩
    · rw [List.mem_singleton.1 hc]
      exact ⟨fun hstart => absurd hstart.1 hnot, fun hend => absurd hend.1 hnot⟩

/-- So does pushing a command that has the requests on the right side. -/
theorem Stamped.push_command (h : Stamped s) (hidle : s.fill = .idle) {start : Bool} (htype : c.type = .sesamCommand)
    (hepoch : c.epoch = s.cpuEpoch) (hwrite : c.write = start.toNat) (hstamp : c.timeStamp = s.commandStamp start)
    (hfits : FitsCommand start s) : Stamped (s.push c) := by
  have hnot : ¬ c.IsRequest := by
    intro hc
    rcases hc with hc | hc <;> rw [hc] at htype <;> cases htype
  refine ⟨?_, fun hfill => absurd hidle hfill, ?_, ?_⟩
  · intro r hr
    rcases List.mem_append.1 hr with hr | hr
    · exact h.epoch_le r hr
    · rw [List.mem_singleton.1 hr]
      exact hepoch.le
  · intro c' hc' htype' hepoch'
    rcases List.mem_append.1 hc' with hc' | hc'
    · exact h.command c' hc' htype' hepoch'
    · rw [List.mem_singleton.1 hc']
      exact ⟨start, hwrite, hstamp⟩
  · intro c' hc' r hr hrequest heq
    rcases List.mem_append.1 hr with hr | hr
    · rcases List.mem_append.1 hc' with hc' | hc'
      · exact h.apart c' hc' r hr hrequest heq
      · rw [List.mem_singleton.1 hc'] at heq ⊢
        have hside := hfits r hr hrequest (heq.symm.trans hepoch)
        rw [hstamp]
        refine ⟨fun hstart => ?_, fun hend => ?_⟩
        · cases start with
          | true => exact hside
          | false => exact absurd hwrite hstart.2
        · cases start with
          | true => exact absurd (hend.2.symm.trans hwrite) (by decide)
          | false => exact hside
    · rw [List.mem_singleton.1 hr] at hrequest
      exact absurd hrequest hnot

/-- When the CPU thread begins an epoch, nothing was pushed in it yet. -/
theorem Stamped.fillBiases (h : Stamped s) (n now : ℕ) : Stamped (s.fillBiases n now) := by
  refine ⟨fun r hr => (h.epoch_le r hr).trans (Nat.le_succ _), fun _ r hr => Nat.lt_succ_of_le (h.epoch_le r hr), ?_,
    h.apart⟩
  intro c hc _ hepoch
  exact absurd hepoch (Nat.lt_succ_of_le (h.epoch_le c hc)).ne

/-- A call that keeps the commands around the requests keeps the time stamps apart. -/
theorem Stamped.call (h : Stamped s) (hidle : s.fill = .idle) {a : Call} (hfits : FitsAction s (.call a)) :
    Stamped (a.after s) := by
  have hstamp (t : ℕ) (halted : Bool) : Stamped { s with currentTimeStamp := t, halted := halted } :=
    ⟨h.epoch_le, h.epoch_lt, h.command, h.apart⟩
  cases a with
  | notify cpu exec write phys size =>
    change Stamped (s.notify cpu exec write phys size)
    unfold CosimState.notify
    split
    · exact hstamp _ _
    · rename_i hhalted
      exact (hstamp _ _).push_request hidle (.inl rfl) rfl (hfits (Bool.eq_false_iff.2 hhalted))
  | notifyFetchMiss cpu phys size =>
    change Stamped (s.notifyFetchMiss cpu phys size)
    unfold CosimState.notifyFetchMiss
    split
    · exact h
    · rename_i hhalted
      exact h.push_request hidle (.inl rfl) rfl (hfits (Bool.eq_false_iff.2 hhalted))
  | notifyIo device exec write phys size tag =>
    change Stamped (s.notifyIo device exec write phys size tag)
    unfold CosimState.notifyIo
    split
    · exact h
    · rename_i hhalted
      exact h.push_request hidle (.inr rfl) rfl (hfits (Bool.eq_false_iff.2 hhalted))
  | notifySesamCommand counter start =>
    exact (hstamp s.currentTimeStamp _).push_command hidle rfl rfl rfl rfl hfits
  | fillBiases n now => exact h.fillBiases n now

/-- `FillBiases` changes the time of the epoch only when nothing was pushed in it. -/
theorem Stamped.fillStep (h : Stamped s) (hstep : FillStep simulators s s') : Stamped s' := by
  cases hstep with
  | waitMem n now hfill hnear => exact ⟨h.epoch_le, fun _ => h.epoch_lt (hfill ▸ nofun), h.command, h.apart⟩
  | lock n now hfill hfree => exact ⟨h.epoch_le, fun _ => h.epoch_lt (hfill ▸ nofun), h.command, h.apart⟩
  | bias n now j i hfill hj hi => exact ⟨h.epoch_le, fun _ => h.epoch_lt (hfill ▸ nofun), h.command, h.apart⟩
  | nextSimulator n now j i hfill hj hi => exact ⟨h.epoch_le, fun _ => h.epoch_lt (hfill ▸ nofun), h.command, h.apart⟩
  | biased n now j i hfill hj => exact ⟨h.epoch_le, fun _ => h.epoch_lt (hfill ▸ nofun), h.command, h.apart⟩
  | unlock now hfill => exact ⟨h.epoch_le, fun _ => h.epoch_lt (hfill ▸ nofun), h.command, h.apart⟩
  | setTime now hfill =>
    have hlt := h.epoch_lt (hfill ▸ nofun)
    exact ⟨h.epoch_le, fun _ => hlt, fun c hc _ hepoch => absurd hepoch (hlt c hc).ne, h.apart⟩

/-- The memory thread pushes nothing new. -/
theorem Stamped.runStep (h : Stamped s) (hstep : RunStep simulators s s') : Stamped s' := by
  cases hstep with
  | serve tmp k i delay refuses hrun hlt hroom =>
    obtain ⟨times, delays, accomplished, full, hhandle⟩ := handle_frame i delay refuses k s
    rw [hhandle]
    exact ⟨h.epoch_le, h.epoch_lt, h.command, h.apart⟩
  | _ => exact ⟨h.epoch_le, h.epoch_lt, h.command, h.apart⟩

/-- The time stamps stay apart with each step that keeps the commands around the requests. -/
theorem Stamped.step {a : Action} (h : Stamped s) (hstep : Step simulators s a s') (hfits : FitsAction s a) :
    Stamped s' := by
  cases hstep with
  | call c hidle => exact h.call hidle hfits
  | getDelay device refuses => exact ⟨h.epoch_le, h.epoch_lt, h.command, h.apart⟩
  | fill _ hfill => exact h.fillStep hfill
  | run k delay refuses _ hrun => exact h.runStep hrun

/-- What was not pushed was not handed out. -/
theorem Ordered.count_of_not_mem (h : Ordered simulators s) {before after : List (ℕ × Req)}
    (hsplit : s.handled = before ++ after) (hr : r ∉ s.pushed) (j : ℕ) : before.count (j, r) = s.pushed.count r := by
  rw [List.count_eq_zero.2 hr]
  apply List.count_eq_zero.2
  intro hmem
  have hhandled : (j, r) ∈ s.handled := by
    rw [hsplit]
    exact List.mem_append_left _ hmem
  exact hr (h.mem_pushed hhandled)

/-- The commands bracket their epoch where the time stamps are apart. -/
theorem Ordered.bracketed (h : Ordered simulators s) (hstamped : Stamped s) : Bracketed simulators s := by
  have hpushed {before after : List (ℕ × Req)} {x : ℕ × Req} (hsplit : s.handled = before ++ x :: after) :
      x.2 ∈ s.pushed := by
    apply h.mem_pushed
    rw [hsplit]
    exact List.mem_append_right _ List.mem_cons_self
  constructor
  · intro before i r after hsplit hr c hc hepoch j hj
    by_cases hmem : c ∈ s.pushed
    · have hlt := (hstamped.apart c hmem r (hpushed hsplit) hr hepoch).1 hc
      exact h.count_before hsplit hj (.inr ⟨hepoch.symm, hlt⟩)
    · exact h.count_of_not_mem hsplit hmem j
  · intro before i c after hsplit hc r hr hepoch j hj
    by_cases hmem : r ∈ s.pushed
    · have hlt := (hstamped.apart c (hpushed hsplit) r hmem hr hepoch.symm).2 hc
      exact h.count_before hsplit hj (.inr ⟨hepoch.symm, hlt⟩)
    · exact h.count_of_not_mem hsplit hmem j

/-- At the start nothing was pushed. -/
theorem stamped_init (focusOnROI : Bool) : Stamped (init focusOnROI) := ⟨nofun, nofun, nofun, nofun⟩

/-- The commands bracket their epoch in every state of a run whose calls keep the time stamps on the right side of
them. -/
theorem bracketed_throughout {focusOnROI : Bool} (h : Along (step simulators) FitsAction (init focusOnROI) acts) :
    Throughout (step simulators) (Bracketed simulators) (init focusOnROI) acts := by
  intro done rest t hsplit hrun
  subst hsplit
  have hstamped : Stamped t :=
    h.left.of_forM_ok (fun _ _ _ _ hs hfits hstep => hs.step (step_cases hstep) hfits) (stamped_init focusOnROI) hrun
  exact (ordered_of_run hrun).bracketed hstamped

instance (start : Bool) (s : CosimState) : Decidable (FitsCommand start s) :=
  inferInstanceAs (Decidable (∀ r ∈ _, _))

instance (s : CosimState) : (a : Action) → Decidable (FitsAction s a)
  | .call (.notify _ exec _ _ _) => inferInstanceAs (Decidable (_ → Fits (s.stamp exec) s))
  | .call (.notifyFetchMiss _ _ _) => inferInstanceAs (Decidable (_ → Fits s.currentTimeStamp s))
  | .call (.notifyIo _ exec _ _ _ _) => inferInstanceAs (Decidable (_ → Fits (s.stamp exec) s))
  | .call (.notifySesamCommand _ start) => inferInstanceAs (Decidable (FitsCommand start s))
  | .call (.fillBiases _ _) => isTrue trivial
  | .getDelay _ _ => isTrue trivial
  | .fill => isTrue trivial
  | .run _ _ _ => isTrue trivial

/-- The command that starts the capture of the epoch that begins at time 10. -/
def startCommand : Req := { emptyReq with type := .sesamCommand, tag := 1, write := 1, epoch := 1, timeStamp := 9 }

/-- A request of CPU 0 at time 5 of that epoch. -/
def capturedReq : Req := { emptyReq with size := 4, tag := 1, epoch := 1, timeStamp := 15 }

/-- The command that ends the capture. -/
def endCommand : Req := { capturedReq with type := .sesamCommand, write := 0, timeStamp := 10 + maxQuantum + 1 }

/-- A request between two commands, after which the memory thread finds the first epoch empty and hands out what was
pushed. -/
def capture : List Action :=
  [.call (.fillBiases 0 10), .fill, .fill, .fill, .fill, .fill, .fill, .call (.notifySesamCommand 1 true),
    .call (.notify 0 5 0 0 4), .call (.notifySesamCommand 1 false), .call (.fillBiases 0 20)] ++
  List.replicate 12 (.run startCommand 0 false) ++ List.replicate 6 (.run capturedReq 3 false) ++
  List.replicate 4 (.run endCommand 0 false)

/-- The commands bracket the epoch in every state of the run, which hands them out around the request. -/
theorem bracketed_capture : Throughout (step 1) (Bracketed 1) (init false) capture ∧
    (endState (capture.forM (step 1) (init false))).handled = [(0, startCommand), (0, capturedReq), (0, endCommand)] := by
  refine ⟨bracketed_throughout ?_, by decide +kernel⟩
  iterate 7 apply Along.cons trivial
  iterate 3 apply Along.cons (by decide +kernel)
  iterate 23 apply Along.cons trivial
  exact trivial

/-- A start command in the epoch that begins at time 0, and what the memory thread does first. -/
def lateStart : List Action :=
  [.call (.notify 0 0 0 0 4), .call (.notifySesamCommand 1 true), .call (.fillBiases 0 0), .run emptyReq 0 false,
    .run emptyReq 0 false, .run { emptyReq with size := 4 } 0 false, .run emptyReq 0 false, .run emptyReq 0 false]

/-- One less than time 0 is the last time stamp, so the request is handed out before the command. -/
theorem not_bracketed_lateStart :
    ∃ s, lateStart.forM (step 1) (init false) = .ok ⟨⟩ s ∧ ¬ Bracketed 1 s := by
  refine ⟨_, eq_ok_endState (by decide +kernel), fun h => ?_⟩
  have hcount := h.start_first [] 0 { emptyReq with size := 4 } [] (by decide +kernel) (.inl rfl)
    { emptyReq with type := .sesamCommand, size := 4, tag := 1, write := 1, timeStamp := 2 ^ 64 - 1 }
    ⟨rfl, nofun⟩ rfl 0 (by decide)
  exact absurd hcount (by decide +kernel)

end Vpsim.Cosim
