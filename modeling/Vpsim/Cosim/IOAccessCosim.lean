import Vpsim.Cosim.QueueRuns

/-!
# The completions of device accesses

The memory thread inserts the completion of an access into the queue of its device, and tries again until there is room.
The simulator that issued the accesses takes the completions out of the queue of each device. Both go on step by step,
and the completions of each device come out in the order in which they were inserted.
-/

namespace Vpsim.Cosim.IOAccess

open Vpsim.Lib
open ReaderWriterQueue

/-- The tuple of `_Q_Accomplished`. -/
structure Completion where
  timeStamp : ℕ
  delay : ℕ
  tag : ℕ
  deriving DecidableEq

/-- The block size that the queues are declared with. -/
def maxBlockSize : ℕ := 512

/-- The size that the queues are constructed with. -/
def maxSize : ℕ := 4096 * 4096

/-- The queues of `_Q_Accomplished` by device, where a pointer without a queue is null, the completion that the memory
thread inserts, and those that it has begun to insert, by device. -/
structure IoState where
  accomplished : ℕ → Option (QueueState Completion)
  inserting : Option (ℕ × Completion)
  inserted : List (ℕ × Completion)

/-- `IOAccessCosimulator(name, outPorts)`. -/
def init (outPorts : ℕ) : IoState where
  accomplished := fun device =>
    if device < outPorts then some (ReaderWriterQueue.init maxBlockSize maxSize) else none
  inserting := none
  inserted := []

/-- What happens next: the memory thread calls `insert`, whose `b_transport` gives the completion, or goes on with it,
and the other simulator calls `GetDelay` for a device, or goes on with it. -/
inductive Action where
  | insert (device : ℕ) (completion : Completion)
  | memory
  | getDelay (device : ℕ)
  | simulator (device : ℕ)

/-- The state with another queue for a device. -/
def IoState.withQueue (s : IoState) (device : ℕ) (q : QueueState Completion) : IoState :=
  { s with accomplished := Function.update s.accomplished device (some q) }

/-- A step of the queue of a device. -/
def queueStep (s : IoState) (device : ℕ) (a : ReaderWriterQueue.Action Completion) :
    Except Fault (QueueState Completion) :=
  match s.accomplished device with
  | none => .error .broken
  | some q => ReaderWriterQueue.after maxBlockSize q a

/-- The state after a step. The loop of `insert` calls `try_enqueue` again if it returned false. -/
def after (s : IoState) : Action → Except Fault IoState
  | .insert device completion =>
    match s.inserting with
    | some _ => .error .idle
    | none => do
      let q ← queueStep s device (.enqueue completion .cannotAlloc)
      return { s.withQueue device q with
        inserting := some (device, completion)
        inserted := s.inserted ++ [(device, completion)] }
  | .memory =>
    match s.inserting with
    | none => .error .idle
    | some (device, completion) => do
      let q ← queueStep s device (.producer true)
      if q.enqueuing.isSome then
        return s.withQueue device q
      else if (q.enqueued.getLast?.map Prod.snd) = some true then
        return { s.withQueue device q with inserting := none }
      else
        let again ← ReaderWriterQueue.after maxBlockSize q (.enqueue completion .cannotAlloc)
        return s.withQueue device again
  | .getDelay device => do return s.withQueue device (← queueStep s device .tryDequeue)
  | .simulator device => do return s.withQueue device (← queueStep s device .consumer)

/-- One step of a run, which ends at one that does not happen. -/
def step (a : Action) : EStateM Fault IoState PUnit := fun s =>
  match after s a with
  | .ok s' => .ok ⟨⟩ s'
  | .error e => .error e s

/-- The completions inserted for a device. -/
def IoState.insertedFor (s : IoState) (device : ℕ) : List Completion :=
  (s.inserted.filter fun c => c.1 = device).map Prod.snd

/-- The completion that is being inserted, if it is for the device. -/
def IoState.insertingFor (s : IoState) (device : ℕ) : List Completion :=
  (s.inserting.toList.filter fun c => c.1 = device).map Prod.snd

variable {s s' : IoState} {least outPorts device other : ℕ} {completion : Completion} {q q' : QueueState Completion}

/-- The queue of a device and the loop of `insert`: what was inserted is in the queue or on its way. -/
structure Serving (least : ℕ) (s : IoState) (device : ℕ) (q : QueueState Completion) : Prop where
  inOrder : InOrder least maxSize q
  exact : q.accepted ++ s.insertingFor device = s.insertedFor device
  idle : (∀ completion, s.inserting ≠ some (device, completion)) → q.enqueuing = none
  busy : ∀ completion, s.inserting = some (device, completion) →
    ∃ call point, q.enqueuing = some (call, point) ∧ call.element = completion
  mode : ∀ call point, q.enqueuing = some (call, point) → call.mode = .cannotAlloc
  modes : ∀ c ∈ q.enqueued, c.1.mode = .cannotAlloc

/-- The queues of all devices. -/
structure Served (least outPorts : ℕ) (s : IoState) : Prop where
  queue : ∀ device < outPorts, ∃ q, s.accomplished device = some q ∧ Serving least s device q
  port : ∀ device completion, s.inserting = some (device, completion) → device < outPorts

/-- What a state has for a device. -/
structure SameFor (s s' : IoState) (device : ℕ) : Prop where
  inserting : ∀ completion, s'.inserting = some (device, completion) ↔ s.inserting = some (device, completion)
  insertingFor : s'.insertingFor device = s.insertingFor device
  insertedFor : s'.insertedFor device = s.insertedFor device

theorem Serving.same (h : Serving least s device q) (hsame : SameFor s s' device) : Serving least s' device q := by
  refine ⟨h.inOrder, ?_, fun hidle => h.idle fun c hc => hidle c ((hsame.inserting c).2 hc),
    fun c hc => h.busy c ((hsame.inserting c).1 hc), h.mode, h.modes⟩
  rw [hsame.insertingFor, hsame.insertedFor]
  exact h.exact

/-- A step that changes the queue of one device serves the devices if it serves this one. -/
theorem Served.withQueue (h : Served least outPorts s) (device : ℕ) (q' : QueueState Completion)
    (hqueues : s'.accomplished = Function.update s.accomplished device (some q')) (hq : Serving least s' device q')
    (hother : ∀ other, other ≠ device → SameFor s s' other)
    (hport : ∀ device completion, s'.inserting = some (device, completion) → device < outPorts) :
    Served least outPorts s' := by
  refine ⟨fun other hlt => ?_, hport⟩
  rw [hqueues]
  rcases eq_or_ne other device with rfl | hne
  · exact ⟨q', Function.update_self .., hq⟩
  · obtain ⟨q, hold, hserving⟩ := h.queue other hlt
    exact ⟨q, (Function.update_of_ne hne ..).trans hold, hserving.same (hother other hne)⟩

/-- A step of the other simulator leaves what was inserted. -/
theorem Served.dequeue (h : Served least outPorts s) (hserving : Serving least s device q)
    (hinOrder : InOrder least maxSize q') (henqueuing : q'.enqueuing = q.enqueuing) (henqueued : q'.enqueued = q.enqueued) :
    Served least outPorts (s.withQueue device q') := by
  have haccepted : q'.accepted = q.accepted := by
    unfold QueueState.accepted
    rw [henqueued]
  refine h.withQueue device q' rfl ⟨hinOrder, ?_, ?_, ?_, ?_, ?_⟩ (fun _ _ => ⟨fun _ => Iff.rfl, rfl, rfl⟩) h.port
  · rw [haccepted]
    exact hserving.exact
  · rw [henqueuing]
    exact hserving.idle
  · rw [henqueuing]
    exact hserving.busy
  · rw [henqueuing]
    exact hserving.mode
  · rw [henqueued]
    exact hserving.modes

/-- The device of an action of the other simulator or of a call of `insert`. -/
def Action.hasPort (outPorts : ℕ) : Action → Prop
  | .insert device _ => device < outPorts
  | .memory => True
  | .getDelay device => device < outPorts
  | .simulator device => device < outPorts

instance (outPorts : ℕ) : (a : Action) → Decidable (a.hasPort outPorts)
  | .insert device _ => inferInstanceAs (Decidable (device < outPorts))
  | .memory => inferInstanceAs (Decidable True)
  | .getDelay device => inferInstanceAs (Decidable (device < outPorts))
  | .simulator device => inferInstanceAs (Decidable (device < outPorts))

/-- A step serves the devices, and if it is not taken its thread is not there for it. -/
def Serves (least outPorts : ℕ) : Except Fault IoState → Prop
  | .ok s' => Served least outPorts s'
  | .error e => e = .idle

theorem insertingFor_of_none (h : s.inserting = none) : s.insertingFor device = [] := by
  unfold IoState.insertingFor
  rw [h]
  rfl

theorem insertingFor_of_some (h : s.inserting = some (device, completion)) :
    s.insertingFor other = if device = other then [completion] else [] := by
  unfold IoState.insertingFor
  rw [h]
  split <;> simp_all

theorem insertedFor_append (h : s'.inserted = s.inserted ++ [(device, completion)]) :
    s'.insertedFor other = s.insertedFor other ++ if device = other then [completion] else [] := by
  unfold IoState.insertedFor
  rw [h, List.filter_append, List.map_append]
  split <;> simp_all

/-- A call of `insert` serves the devices. -/
theorem Served.insert (h : Served least outPorts s) (hdevice : device < outPorts) :
    Serves least outPorts (after s (.insert device completion)) := by
  unfold after
  dsimp only
  split
  · rfl
  · rename_i hidle
    obtain ⟨q, hq, hserving⟩ := h.queue device hdevice
    have hnot (other : ℕ) (c : Completion) : s.inserting ≠ some (other, c) := by
      rw [hidle]
      exact nofun
    have hnone : q.enqueuing = none := hserving.idle (hnot device)
    have hstep : queueStep s device (.enqueue completion .cannotAlloc) = .ok (q.innerEnqueue completion .cannotAlloc) := by
      unfold queueStep
      rw [hq]
      exact if_pos (Option.isNone_iff_eq_none.2 hnone)
    rw [hstep]
    obtain ⟨used, free, items, hsound⟩ := hserving.inOrder
    have hexact := hserving.exact
    rw [insertingFor_of_none hidle, List.append_nil] at hexact
    refine h.withQueue device (q.innerEnqueue completion .cannotAlloc) rfl
      ⟨hsound.innerEnqueue hnone _ _, ?_, ?_, ?_, ?_, hserving.modes⟩ ?_ ?_
    · rw [insertingFor_of_some rfl, insertedFor_append rfl, if_pos rfl]
      exact congrArg (· ++ [completion]) hexact
    · intro hidle'
      exact absurd rfl (hidle' completion)
    · rintro c ⟨⟩
      exact ⟨_, _, rfl, rfl⟩
    · rintro call point ⟨⟩
      rfl
    · intro other hne
      refine ⟨fun c => ?_, ?_, ?_⟩
      · refine iff_of_false ?_ (hnot other c)
        rintro ⟨⟩
        exact hne rfl
      · rw [insertingFor_of_some rfl, if_neg hne.symm, insertingFor_of_none hidle]
      · rw [insertedFor_append rfl, if_neg hne.symm, List.append_nil]
    · rintro other c ⟨⟩
      exact hdevice

/-- A step of the memory thread in `insert` serves the devices. -/
theorem Served.memory (hleast : 1 ≤ least) (h : Served least outPorts s) : Serves least outPorts (after s .memory) := by
  unfold after
  dsimp only
  split
  · rfl
  · rename_i device completion hinserting
    obtain ⟨q, hq, hserving⟩ := h.queue device (h.port device completion hinserting)
    obtain ⟨call, point, henqueuing, helement⟩ := hserving.busy completion hinserting
    obtain ⟨q', hstep, hinOrder⟩ := hserving.inOrder.enqueueStep maxBlockSize true hleast henqueuing
    have hqueue : queueStep s device (.producer true) = .ok q' := by
      unfold queueStep ReaderWriterQueue.after
      rw [hq]
      dsimp only
      rw [henqueuing]
      exact hstep
    rw [hqueue]
    have hexact := hserving.exact
    rw [insertingFor_of_some hinserting, if_pos rfl] at hexact
    have hmode := hserving.mode call point henqueuing
    rcases enqueueStep_cases hstep with ⟨r, point', rfl, -⟩ | ⟨r, result, rfl⟩
    · refine h.withQueue device (q.produce r call point') rfl
        ⟨hinOrder, hserving.exact, fun hidle => absurd hinserting (hidle completion), ?_, ?_, hserving.modes⟩
        (fun _ _ => ⟨fun _ => Iff.rfl, rfl, rfl⟩) h.port
      · intro c hc
        obtain ⟨call', point'', hcall, helement'⟩ := hserving.busy c hc
        rw [henqueuing] at hcall
        cases hcall
        exact ⟨call, point', rfl, helement'⟩
      · rintro call' point'' ⟨⟩
        exact hmode
    · have hmodes : ∀ c ∈ (q.finishEnqueue r call result).enqueued, c.1.mode = .cannotAlloc := by
        intro c hc
        rcases List.mem_append.1 hc with hc | hc
        · exact hserving.modes c hc
        · rw [List.mem_singleton.1 hc]
          exact hmode
      have haccepted : (q.finishEnqueue r call result).accepted =
          q.accepted ++ if result then [completion] else [] := by
        unfold QueueState.accepted QueueState.finishEnqueue
        rw [List.filterMap_append, ← helement]
        cases result <;> rfl
      have hlast : (q.finishEnqueue r call result).enqueued.getLast?.map Prod.snd = some result := by
        unfold QueueState.finishEnqueue
        rw [List.getLast?_concat]
        rfl
      change Serves least outPorts (if ((q.finishEnqueue r call result).enqueued.getLast?.map Prod.snd) = some true then _
        else _)
      rw [hlast]
      cases result with
      | true =>
        rw [if_pos rfl]
        refine h.withQueue device (q.finishEnqueue r call true) rfl
          ⟨hinOrder, ?_, fun _ => rfl, nofun, nofun, hmodes⟩ ?_ nofun
        · rw [insertingFor_of_none rfl, List.append_nil, haccepted]
          exact hexact
        · intro other hne
          refine ⟨fun c => iff_of_false nofun ?_, ?_, rfl⟩
          · rw [hinserting]
            rintro ⟨⟩
            exact hne rfl
          · rw [insertingFor_of_none rfl, insertingFor_of_some hinserting, if_neg hne.symm]
      | false =>
        rw [if_neg (by simp)]
        obtain ⟨used, free, items, hsound⟩ := hinOrder
        have hagain := hsound.innerEnqueue rfl completion .cannotAlloc
        refine h.withQueue device ((q.finishEnqueue r call false).innerEnqueue completion .cannotAlloc)
          rfl ⟨hagain, ?_, fun hidle => absurd hinserting (hidle completion), ?_, ?_, hmodes⟩
          (fun _ _ => ⟨fun _ => Iff.rfl, rfl, rfl⟩) h.port
        · have hsame : ((q.finishEnqueue r call false).innerEnqueue completion .cannotAlloc).accepted = q.accepted := by
            refine Eq.trans haccepted ?_
            rw [if_neg Bool.false_ne_true, List.append_nil]
          rw [hsame]
          exact hserving.exact
        · intro c hc
          rw [show s.inserting = some (device, c) from hc] at hinserting
          cases hinserting
          exact ⟨_, _, rfl, rfl⟩
        · rintro call' point' ⟨⟩
          rfl

/-- A step of the other simulator serves the devices. -/
theorem Served.take (hleast : 1 ≤ least) (h : Served least outPorts s) (hdevice : device < outPorts)
    {a : ReaderWriterQueue.Action Completion} (ha : a = .tryDequeue ∨ a = .consumer) :
    Serves least outPorts (do return s.withQueue device (← queueStep s device a)) := by
  obtain ⟨q, hq, hserving⟩ := h.queue device hdevice
  unfold queueStep
  rw [hq]
  dsimp only
  by_cases hready : Ready q a
  · obtain ⟨q', hstep, hinOrder⟩ := hserving.inOrder.proceeds maxBlockSize hleast hready
    rw [hstep]
    have hkept : q'.enqueuing = q.enqueuing ∧ q'.enqueued = q.enqueued := by
      rcases ha with rfl | rfl
      · unfold ReaderWriterQueue.after at hstep
        dsimp only at hstep
        split at hstep
        · cases hstep
          exact ⟨rfl, rfl⟩
        · cases hstep
      · unfold ReaderWriterQueue.after at hstep
        dsimp only at hstep
        split at hstep
        · cases hstep
        · rcases dequeueStep_cases hstep with ⟨r, point, rfl, -⟩ | ⟨r, result, rfl⟩
          · exact ⟨rfl, rfl⟩
          · exact ⟨rfl, rfl⟩
    exact h.dequeue hserving hinOrder hkept.1 hkept.2
  · rw [after_of_not_ready hready]
    rfl

/-- Every step serves the devices. -/
theorem Served.after (hleast : 1 ≤ least) (h : Served least outPorts s) {a : Action} (ha : a.hasPort outPorts) :
    Serves least outPorts (after s a) := by
  cases a with
  | insert device completion => exact h.insert ha
  | memory => exact h.memory hleast
  | getDelay device => exact h.take hleast ha (.inl rfl)
  | simulator device => exact h.take hleast ha (.inr rfl)

theorem init_served (hinit : InOrder least maxSize (ReaderWriterQueue.init maxBlockSize maxSize : QueueState Completion)) :
    Served least outPorts (init outPorts) :=
  ⟨fun _ hdevice => ⟨_, if_pos hdevice, hinit, rfl, fun _ => rfl, nofun, nofun, nofun⟩, nofun⟩

/-- The completions of a device: those that came out are the first that were inserted, in that order; those that were
inserted are in the queue, but for one that is on its way; nothing is found only in an empty queue, and `insert` tries
again only if `maxSize` completions wait. -/
structure Completed (s : IoState) (device : ℕ) (q : QueueState Completion) : Prop where
  order : q.handed <+: s.insertedFor device
  exact : q.accepted ++ s.insertingFor device = s.insertedFor device
  missed : ∀ d ∈ q.dequeued, d.2 = none → d.1 = 0
  retried : ∀ c ∈ q.enqueued, c.2 = false → maxSize ≤ c.1.held

theorem Serving.completed (h : Serving least s device q) : Completed s device q := by
  have hfifo := h.inOrder.fifo
  refine ⟨?_, h.exact, hfifo.missed, fun c hc hresult => hfifo.refused c hc hresult (h.modes c hc)⟩
  rw [← h.exact]
  exact hfifo.order.trans (List.prefix_append ..)

/-- Two completions for different devices, one of which is taken while the other is inserted. -/
def twoDevices : List Action :=
  [.insert 0 ⟨5, 3, 1⟩, .memory, .memory, .insert 1 ⟨6, 4, 2⟩, .getDelay 0, .memory, .simulator 0, .memory, .simulator 0]

end Vpsim.Cosim.IOAccess
