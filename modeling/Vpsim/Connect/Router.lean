import Vpsim.Connect.NocTopology
import Vpsim.Lib.RoundRobin

/-!
# The router of the network on chip

`C_Router::DoRoute` takes at most one flit from each input fifo into its buffer and then offers every output fifo with
a free slot one flit of the buffer, by round-robin search from the input behind the one served last. The buffer is two
maps, by input and by output and input. `sent` lists what was written to an output fifo so far. What arrives on the
input fifos and which output fifos have a free slot is given for each step.

The search adds the round to the pointer in 32 bits, so it looks at every input only up to `2 ^ 31` of them.
-/

namespace Vpsim.Connect

open Vpsim.Lib

/-- `NoCFlit`. -/
structure Flit (τ α : Type) where
  targetId : τ
  payload : α
  currentInputPortID : ℕ

/-- The ports of a router and the ports of its targets. -/
structure RouterConfig (τ : Type) where
  nbIn : ℕ
  outputPorts : List ℕ
  targetToOutPort : τ → ℕ
  nbIn_lt : nbIn < portIds
  nodup : outputPorts.Nodup
  mapped : ∀ target, targetToOutPort target ∈ outputPorts

/-- `C_Router`. -/
structure Router (τ α : Type) where
  inputFifos : ℕ → List (Flit τ α)
  requestsBeeingRouted : ℕ → Option (Flit τ α)
  requestsPerOutputPort : ℕ → ℕ → Option (Flit τ α)
  roundRobinStates : ℕ → ℕ
  sent : ℕ → List (Flit τ α)

/-- What a step of the router meets: the flits that arrived since the last step, and the outputs with a free slot. -/
structure RouterInput (τ α : Type) where
  arrivals : ℕ → List (Flit τ α)
  free : ℕ → Bool

/-- `RoundRobinSearch`. -/
def roundRobinSearch {β : Type} (requests : ℕ → Option β) (counter nbIn : ℕ) : Option β :=
  (List.range nbIn).findSome? fun i => requests ((i + counter) % portIds % nbIn)

namespace Router

variable {τ α : Type}

/-- A router without flits. -/
def init : Router τ α := ⟨fun _ => [], fun _ => none, fun _ _ => none, fun _ => 0, fun _ => []⟩

/-- The flits that arrived. -/
def arrive (s : Router τ α) (input : RouterInput τ α) : Router τ α :=
  { s with inputFifos := fun i => s.inputFifos i ++ input.arrivals i }

/-- A flit read from an input. -/
def stamp (i : ℕ) (f : Flit τ α) : Flit τ α := { f with currentInputPortID := i }

/-- The output port of a flit. -/
def outPort (c : RouterConfig τ) (f : Flit τ α) : ℕ := c.targetToOutPort f.targetId

/-- The first loop of `DoRoute`: read an input from which no flit is in the buffer. -/
def readInput (c : RouterConfig τ) (s : Router τ α) (i : ℕ) : Router τ α :=
  match s.requestsBeeingRouted i, s.inputFifos i with
  | none, f :: rest =>
    { s with
      inputFifos := Function.update s.inputFifos i rest
      requestsBeeingRouted := Function.update s.requestsBeeingRouted i (some (stamp i f))
      requestsPerOutputPort := Function.update s.requestsPerOutputPort (outPort c f)
        (Function.update (s.requestsPerOutputPort (outPort c f)) i (some (stamp i f))) }
  | _, _ => s

/-- A flit leaves the buffer for an output. -/
def grant (s : Router τ α) (o : ℕ) (f : Flit τ α) : Router τ α :=
  { s with
    requestsBeeingRouted := Function.update s.requestsBeeingRouted f.currentInputPortID none
    requestsPerOutputPort := Function.update s.requestsPerOutputPort o
      (Function.update (s.requestsPerOutputPort o) f.currentInputPortID none)
    roundRobinStates := Function.update s.roundRobinStates o ((f.currentInputPortID + 1) % portIds)
    sent := Function.update s.sent o (s.sent o ++ [f]) }

/-- The second loop of `DoRoute`: an output with a free slot. -/
def sendOutput (c : RouterConfig τ) (free : ℕ → Bool) (s : Router τ α) (o : ℕ) : Router τ α :=
  if free o then
    match roundRobinSearch (s.requestsPerOutputPort o) (s.roundRobinStates o) c.nbIn with
    | some f => s.grant o f
    | none => s
  else s

/-- `DoRoute`. An output without a flit in the buffer has nothing to send. -/
def doRoute (c : RouterConfig τ) (s : Router τ α) (input : RouterInput τ α) : Router τ α :=
  c.outputPorts.foldl (sendOutput c input.free) ((List.range c.nbIn).foldl (readInput c) (s.arrive input))

/-- A run. -/
def run (c : RouterConfig τ) (s : Router τ α) (inputs : List (RouterInput τ α)) : Router τ α :=
  inputs.foldl (doRoute c) s

variable (c : RouterConfig τ)

/-- The flits for an output. -/
def toPort (o : ℕ) (flits : List (Flit τ α)) : List (Flit τ α) := flits.filter fun f => outPort c f = o

/-- The flits from an input. -/
def fromPort (i : ℕ) (flits : List (Flit τ α)) : List (Flit τ α) := flits.filter fun f => f.currentInputPortID = i

/-- What became of the flits that arrived: from each input to each output they were sent in the order of their
arrival, and then come the one in the buffer and those in the fifo. Each flit was sent to the output of its target, and
the two maps of the buffer are one. -/
structure Conserved (arrived : ℕ → List (Flit τ α)) (s : Router τ α) : Prop where
  order : ∀ i < c.nbIn, ∀ o, (toPort c o (arrived i)).map (stamp i) =
    fromPort i (s.sent o) ++ toPort c o (s.requestsBeeingRouted i).toList ++ (toPort c o (s.inputFifos i)).map (stamp i)
  sentTo : ∀ o, ∀ f ∈ s.sent o, outPort c f = o ∧ f.currentInputPortID < c.nbIn
  byInput : ∀ i f, s.requestsBeeingRouted i = some f →
    i < c.nbIn ∧ f.currentInputPortID = i ∧ s.requestsPerOutputPort (outPort c f) i = some f
  byOutput : ∀ o i f, s.requestsPerOutputPort o i = some f → s.requestsBeeingRouted i = some f ∧ outPort c f = o
  pointer : ∀ o, s.roundRobinStates o ≤ c.nbIn

/-- From a state on, a flit in the buffer waits for fewer grants of its output than there are inputs, and whenever the
output has a free slot meanwhile, one of them is given. -/
structure SentInTurn (s t : Router τ α) (after : List (RouterInput τ α)) (o i : ℕ) (f : Flit τ α)
    (flits : List (Flit τ α)) : Prop where
  sent : t.sent o = s.sent o ++ flits
  bounded : (flits.takeWhile fun g => g.currentInputPortID ≠ i).length < c.nbIn
  next : ∀ g, (flits.dropWhile fun g => g.currentInputPortID ≠ i).head? = some g → g = f
  busy : (∀ g ∈ flits, g.currentInputPortID ≠ i) → flits.length = (after.filter fun input => input.free o).length

/-- What the router promises of a run. -/
structure RunsFair (inputs : List (RouterInput τ α)) : Prop where
  conserved : Conserved c (fun i => inputs.flatMap fun input => input.arrivals i) (run c init inputs)
  fair : ∀ before after, inputs = before ++ after → ∀ o i f,
    (run c init before).requestsPerOutputPort o i = some f →
      ∃ flits, SentInTurn c (run c init before) (run c init inputs) after o i f flits

section Conservation

variable {c} {arrived : ℕ → List (Flit τ α)} {s : Router τ α}

@[simp] theorem toPort_append (o : ℕ) (l l' : List (Flit τ α)) : toPort c o (l ++ l') = toPort c o l ++ toPort c o l' :=
  List.filter_append ..

@[simp] theorem fromPort_append (i : ℕ) (l l' : List (Flit τ α)) : fromPort i (l ++ l') = fromPort i l ++ fromPort i l' :=
  List.filter_append ..

theorem toPort_singleton (o : ℕ) (f : Flit τ α) : toPort c o [f] = if outPort c f = o then [f] else [] := by
  unfold toPort
  by_cases h : outPort c f = o <;> simp [h]

theorem fromPort_singleton (i : ℕ) (f : Flit τ α) :
    fromPort i [f] = if f.currentInputPortID = i then [f] else [] := by
  unfold fromPort
  by_cases h : f.currentInputPortID = i <;> simp [h]

theorem outPort_stamp (i : ℕ) (f : Flit τ α) : outPort c (stamp i f) = outPort c f := rfl

theorem init_conserved : Conserved c (fun _ => []) (init : Router τ α) :=
  ⟨fun _ _ _ => rfl, nofun, nofun, nofun, fun _ => Nat.zero_le _⟩

theorem Conserved.arrive (h : Conserved c arrived s) (input : RouterInput τ α) :
    Conserved c (fun i => arrived i ++ input.arrivals i) (s.arrive input) where
  order i hi o := by
    have horder := h.order i hi o
    change (toPort c o (arrived i ++ input.arrivals i)).map (stamp i) =
      fromPort i (s.sent o) ++ toPort c o (s.requestsBeeingRouted i).toList ++
        (toPort c o (s.inputFifos i ++ input.arrivals i)).map (stamp i)
    rw [toPort_append, toPort_append, List.map_append, List.map_append, horder, List.append_assoc, List.append_assoc]
  sentTo := h.sentTo
  byInput := h.byInput
  byOutput := h.byOutput
  pointer := h.pointer

/-- An input that has a flit in the buffer, or none on its fifo, is not read. -/
theorem readInput_eq (s : Router τ α) (i : ℕ) :
    readInput c s i = s ∨ ∃ f rest, s.requestsBeeingRouted i = none ∧ s.inputFifos i = f :: rest ∧
      readInput c s i = { s with
        inputFifos := Function.update s.inputFifos i rest
        requestsBeeingRouted := Function.update s.requestsBeeingRouted i (some (stamp i f))
        requestsPerOutputPort := Function.update s.requestsPerOutputPort (outPort c f)
          (Function.update (s.requestsPerOutputPort (outPort c f)) i (some (stamp i f))) } := by
  unfold readInput
  cases hbuffer : s.requestsBeeingRouted i with
  | some g => exact Or.inl rfl
  | none =>
    cases hfifo : s.inputFifos i with
    | nil => exact Or.inl rfl
    | cons f rest => exact Or.inr ⟨f, rest, rfl, rfl, rfl⟩

/-- An assignment to the buffer of one output changes its one entry. -/
theorem update_requests (requests : ℕ → ℕ → Option (Flit τ α)) (o i o' i' : ℕ) (x : Option (Flit τ α)) :
    Function.update requests o (Function.update (requests o) i x) o' i' =
      if o' = o ∧ i' = i then x else requests o' i' := by
  by_cases ho : o' = o
  · rw [ho, Function.update_self]
    by_cases hi : i' = i
    · rw [hi, Function.update_self, if_pos ⟨rfl, rfl⟩]
    · rw [Function.update_of_ne hi, if_neg fun h => hi h.2]
  · rw [Function.update_of_ne ho, if_neg fun h => ho h.1]

theorem grant_requests (s : Router τ α) (o : ℕ) (g : Flit τ α) (o' i' : ℕ) :
    (s.grant o g).requestsPerOutputPort o' i' =
      if o' = o ∧ i' = g.currentInputPortID then none else s.requestsPerOutputPort o' i' :=
  update_requests ..

theorem Conserved.readInput (h : Conserved c arrived s) {i : ℕ} (hi : i < c.nbIn) :
    Conserved c arrived (readInput c s i) := by
  rcases readInput_eq (c := c) s i with heq | ⟨f, rest, hnone, hfifo, heq⟩
  · rw [heq]
    exact h
  · rw [heq]
    refine ⟨fun j hj o => ?_, h.sentTo, fun j g hg => ?_, fun o j g hg => ?_, h.pointer⟩
    · have horder := h.order j hj o
      by_cases hji : j = i
      · rw [hji, hnone, hfifo] at horder
        rw [hji]
        dsimp only
        rw [Function.update_self, Function.update_self, horder]
        change _ = fromPort i (s.sent o) ++ toPort c o [stamp i f] ++ (toPort c o rest).map (stamp i)
        rw [← List.singleton_append, toPort_append, List.map_append, toPort_singleton, toPort_singleton, outPort_stamp]
        change fromPort i (s.sent o) ++ [] ++ _ = _
        rw [List.append_nil, List.append_assoc]
        by_cases ho : outPort c f = o
        · rw [if_pos ho, if_pos ho]
          rfl
        · rw [if_neg ho, if_neg ho]
          rfl
      · dsimp only
        rw [Function.update_of_ne hji, Function.update_of_ne hji]
        exact horder
    · dsimp only at hg ⊢
      rw [update_requests]
      by_cases hji : j = i
      · rw [hji, Function.update_self] at hg
        obtain rfl := Option.some.inj hg
        rw [hji, if_pos ⟨rfl, rfl⟩]
        exact ⟨hi, rfl, rfl⟩
      · rw [Function.update_of_ne hji] at hg
        rw [if_neg fun hpair => hji hpair.2]
        exact h.byInput j g hg
    · dsimp only at hg ⊢
      rw [update_requests] at hg
      by_cases hpair : o = outPort c f ∧ j = i
      · rw [if_pos hpair] at hg
        obtain rfl := Option.some.inj hg
        rw [hpair.2, Function.update_self]
        exact ⟨rfl, hpair.1.symm⟩
      · rw [if_neg hpair] at hg
        obtain ⟨hbuffer, hport⟩ := h.byOutput o j g hg
        have hji : j ≠ i := by
          rintro rfl
          rw [hnone] at hbuffer
          cases hbuffer
        rw [Function.update_of_ne hji]
        exact ⟨hbuffer, hport⟩

/-- A flit in the buffer came in by the port it is held for, is being routed, and goes to that output. -/
theorem Conserved.held (h : Conserved c arrived s) {o i : ℕ} {f : Flit τ α}
    (hf : s.requestsPerOutputPort o i = some f) :
    i < c.nbIn ∧ f.currentInputPortID = i ∧ s.requestsBeeingRouted i = some f ∧ outPort c f = o := by
  obtain ⟨hbuffer, hport⟩ := h.byOutput o i f hf
  obtain ⟨hi, hcurrent, -⟩ := h.byInput i f hbuffer
  exact ⟨hi, hcurrent, hbuffer, hport⟩

theorem Conserved.grant (h : Conserved c arrived s) {o i : ℕ} {f : Flit τ α}
    (hf : s.requestsPerOutputPort o i = some f) : Conserved c arrived (s.grant o f) := by
  obtain ⟨hi, hcurrent, hbuffer, hport⟩ := h.held hf
  unfold Router.grant
  rw [hcurrent]
  refine ⟨fun j hj o' => ?_, fun o' g hg => ?_, fun j g hg => ?_, fun o' j g hg => ?_, fun o' => ?_⟩
  · have horder := h.order j hj o'
    dsimp only
    by_cases hji : j = i
    · rw [hji, hbuffer] at horder
      rw [hji, Function.update_self, horder]
      by_cases ho : o' = o
      · rw [ho, Function.update_self, fromPort_append, fromPort_singleton, if_pos hcurrent]
        change fromPort i (s.sent o) ++ toPort c o [f] ++ _ = fromPort i (s.sent o) ++ [f] ++ [] ++ _
        rw [toPort_singleton, if_pos hport, List.append_nil]
      · rw [Function.update_of_ne ho]
        change fromPort i (s.sent o') ++ toPort c o' [f] ++ _ = fromPort i (s.sent o') ++ [] ++ _
        rw [toPort_singleton, if_neg fun heq => ho (heq.symm.trans hport)]
    · rw [Function.update_of_ne hji, horder]
      by_cases ho : o' = o
      · rw [ho, Function.update_self, fromPort_append, fromPort_singleton,
          if_neg fun heq => hji (heq.symm.trans hcurrent), List.append_nil]
      · rw [Function.update_of_ne ho]
  · dsimp only at hg
    by_cases ho : o' = o
    · rw [ho, Function.update_self] at hg
      rcases List.mem_append.mp hg with hg | hg
      · rw [ho]
        exact h.sentTo o g hg
      · rw [List.mem_singleton.mp hg, ho, hcurrent]
        exact ⟨hport, hi⟩
    · rw [Function.update_of_ne ho] at hg
      exact h.sentTo o' g hg
  · dsimp only at hg ⊢
    have hji : j ≠ i := by
      rintro rfl
      rw [Function.update_self] at hg
      cases hg
    rw [Function.update_of_ne hji] at hg
    rw [update_requests, if_neg fun hpair => hji hpair.2]
    exact h.byInput j g hg
  · dsimp only at hg ⊢
    rw [update_requests] at hg
    by_cases hpair : o' = o ∧ j = i
    · rw [if_pos hpair] at hg
      cases hg
    · rw [if_neg hpair] at hg
      obtain ⟨hbuffer', hport'⟩ := h.byOutput o' j g hg
      have hji : j ≠ i := by
        rintro rfl
        rw [hbuffer] at hbuffer'
        obtain rfl := Option.some.inj hbuffer'
        exact hpair ⟨hport'.symm.trans hport, rfl⟩
      rw [Function.update_of_ne hji]
      exact ⟨hbuffer', hport'⟩
  · dsimp only
    by_cases ho : o' = o
    · rw [ho, Function.update_self]
      exact Nat.le_trans (Nat.mod_le _ _) hi
    · rw [Function.update_of_ne ho]
      exact h.pointer o'

/-- The search finds a flit of the buffer. -/
theorem exists_of_roundRobinSearch {β : Type} {requests : ℕ → Option β} {counter nbIn : ℕ} {f : β}
    (h : roundRobinSearch requests counter nbIn = some f) : ∃ i, requests i = some f := by
  obtain ⟨k, -, hk⟩ := List.exists_of_findSome?_eq_some h
  exact ⟨_, hk⟩

theorem Conserved.sendOutput (h : Conserved c arrived s) (free : ℕ → Bool) (o : ℕ) :
    Conserved c arrived (sendOutput c free s o) := by
  unfold Router.sendOutput
  split
  · cases hsearch : roundRobinSearch (s.requestsPerOutputPort o) (s.roundRobinStates o) c.nbIn with
    | none => exact h
    | some f =>
      obtain ⟨i, hi⟩ := exists_of_roundRobinSearch hsearch
      exact h.grant hi
  · exact h

theorem Conserved.readInputs (h : Conserved c arrived s) {ports : List ℕ} (hports : ∀ i ∈ ports, i < c.nbIn) :
    Conserved c arrived (ports.foldl (Router.readInput c) s) := by
  induction ports generalizing s with
  | nil => exact h
  | cons i ports ih =>
    exact ih (h.readInput (hports i List.mem_cons_self)) fun j hj => hports j (List.mem_cons_of_mem i hj)

theorem Conserved.sendOutputs (h : Conserved c arrived s) (free : ℕ → Bool) (ports : List ℕ) :
    Conserved c arrived (ports.foldl (Router.sendOutput c free) s) := by
  induction ports generalizing s with
  | nil => exact h
  | cons o ports ih => exact ih (h.sendOutput free o)

theorem Conserved.doRoute (h : Conserved c arrived s) (input : RouterInput τ α) :
    Conserved c (fun i => arrived i ++ input.arrivals i) (doRoute c s input) :=
  ((h.arrive input).readInputs fun _ hi => List.mem_range.mp hi).sendOutputs input.free c.outputPorts

theorem Conserved.run (h : Conserved c arrived s) (inputs : List (RouterInput τ α)) :
    Conserved c (fun i => arrived i ++ inputs.flatMap fun input => input.arrivals i) (run c s inputs) := by
  induction inputs generalizing arrived s with
  | nil =>
    simp only [List.flatMap_nil, List.append_nil]
    exact h
  | cons input inputs ih =>
    have hrest := ih (h.doRoute input)
    simp only [List.append_assoc] at hrest
    exact hrest

end Conservation

section Fairness

variable {c} {arrived : ℕ → List (Flit τ α)} {s : Router τ α}

/-- As long as the sum of round and pointer fits in 32 bits the search is a cyclic one. -/
theorem roundRobinSearch_eq {β : Type} {requests : ℕ → Option β} {counter nbIn : ℕ} (hsmall : nbIn ≤ 2 ^ 31)
    (hcounter : counter ≤ nbIn) : roundRobinSearch requests counter nbIn = search nbIn counter requests := by
  have hround : ∀ l : List ℕ, (∀ k ∈ l, k < nbIn) →
      (l.findSome? fun i => requests ((i + counter) % portIds % nbIn)) =
        l.findSome? fun i => requests ((i + counter) % nbIn) := by
    intro l
    induction l with
    | nil => exact fun _ => rfl
    | cons k l ih =>
      intro hl
      have hk := hl k List.mem_cons_self
      have hfits : (k + counter) % portIds = k + counter := Nat.mod_eq_of_lt (by unfold portIds; omega)
      rw [List.findSome?_cons, List.findSome?_cons, hfits, ih fun j hj => hl j (List.mem_cons_of_mem k hj)]
  exact hround _ fun k hk => List.mem_range.mp hk

/-- A flit waits in the buffer for an output, whose pointer and sent flits are given. -/
structure Waits (o i : ℕ) (f : Flit τ α) (pointer : ℕ) (sent : List (Flit τ α)) (s : Router τ α) : Prop where
  held : s.requestsPerOutputPort o i = some f
  pointer_eq : s.roundRobinStates o = pointer
  sent_eq : s.sent o = sent

variable {o i pointer : ℕ} {f : Flit τ α} {sent : List (Flit τ α)}

/-- Reading an input leaves a flit waiting. -/
theorem Waits.readInput (h : Waits o i f pointer sent s) (hs : Conserved c arrived s) (i' : ℕ) :
    Waits o i f pointer sent (Router.readInput c s i') := by
  rcases readInput_eq (c := c) s i' with heq | ⟨g, rest, hnone, -, heq⟩
  · rw [heq]
    exact h
  · rw [heq]
    refine ⟨?_, h.pointer_eq, h.sent_eq⟩
    have hne : i ≠ i' := by
      rintro rfl
      have hheld := (hs.held h.held).2.2.1
      rw [hnone] at hheld
      cases hheld
    dsimp only
    rw [update_requests, if_neg fun hpair => hne hpair.2]
    exact h.held

theorem Waits.readInputs (h : Waits o i f pointer sent s) (hs : Conserved c arrived s) {ports : List ℕ}
    (hports : ∀ j ∈ ports, j < c.nbIn) : Waits o i f pointer sent (ports.foldl (Router.readInput c) s) := by
  induction ports generalizing s with
  | nil => exact h
  | cons j ports ih =>
    exact ih (h.readInput hs j) (hs.readInput (hports j List.mem_cons_self))
      fun k hk => hports k (List.mem_cons_of_mem j hk)

/-- Another output leaves a flit waiting. -/
theorem Waits.sendOutput (h : Waits o i f pointer sent s) (free : ℕ → Bool) {o' : ℕ} (hne : o ≠ o') :
    Waits o i f pointer sent (Router.sendOutput c free s o') := by
  unfold Router.sendOutput
  split
  · cases roundRobinSearch (s.requestsPerOutputPort o') (s.roundRobinStates o') c.nbIn with
    | none => exact h
    | some g =>
      refine ⟨?_, (Function.update_of_ne hne _ _).trans h.pointer_eq, (Function.update_of_ne hne _ _).trans h.sent_eq⟩
      dsimp only
      rw [grant_requests, if_neg fun hpair => hne hpair.1]
      exact h.held
  · exact h

theorem Waits.sendOutputs (h : Waits o i f pointer sent s) (free : ℕ → Bool) {ports : List ℕ} (hports : o ∉ ports) :
    Waits o i f pointer sent (ports.foldl (Router.sendOutput c free) s) := by
  induction ports generalizing s with
  | nil => exact h
  | cons o' ports ih =>
    exact ih (h.sendOutput free (List.ne_of_not_mem_cons hports)) (List.not_mem_of_not_mem_cons hports)

theorem sendOutput_sent (s : Router τ α) (free : ℕ → Bool) {o o' : ℕ} (hne : o ≠ o') :
    (Router.sendOutput c free s o').sent o = s.sent o := by
  unfold Router.sendOutput
  split
  · cases roundRobinSearch (s.requestsPerOutputPort o') (s.roundRobinStates o') c.nbIn with
    | none => rfl
    | some g => exact Function.update_of_ne hne _ _
  · rfl

theorem sendOutputs_sent (s : Router τ α) (free : ℕ → Bool) {ports : List ℕ} (hports : o ∉ ports) :
    (ports.foldl (Router.sendOutput c free) s).sent o = s.sent o := by
  induction ports generalizing s with
  | nil => rfl
  | cons o' ports ih =>
    exact (ih _ (List.not_mem_of_not_mem_cons hports)).trans
      (sendOutput_sent s free (List.ne_of_not_mem_cons hports))

/-- The output of a waiting flit, with a free slot: the flit is sent, or another one from an input that comes earlier,
and the waiting flit moves up. -/
theorem Waits.grant (h : Waits o i f pointer sent s) (hs : Conserved c arrived s) (hsmall : c.nbIn ≤ 2 ^ 31)
    {free : ℕ → Bool} (hfree : free o = true) :
    ∃ g, (Router.sendOutput c free s o).sent o = sent ++ [g] ∧
      (g = f ∨ g.currentInputPortID ≠ i ∧ ∃ pointer', place c.nbIn pointer' i < place c.nbIn pointer i ∧
        Waits o i f pointer' (sent ++ [g]) (Router.sendOutput c free s o)) := by
  obtain ⟨hi, hcurrent, -, -⟩ := hs.held h.held
  have hsearch := @roundRobinSearch_eq _ (s.requestsPerOutputPort o) _ _ hsmall (hs.pointer o)
  have hsome : (search c.nbIn (s.roundRobinStates o) (s.requestsPerOutputPort o)).isSome :=
    search_isSome hi (by rw [h.held]; rfl)
  obtain ⟨g, hg⟩ := Option.isSome_iff_exists.mp hsome
  obtain ⟨j, hj, hfound, hleast⟩ := search_eq_some hg
  have hsend : Router.sendOutput c free s o = s.grant o g := by
    unfold Router.sendOutput
    rw [if_pos hfree, hsearch, hg]
  have hcurrentG := (hs.held hfound).2.1
  rw [hsend]
  refine ⟨g, ?_, ?_⟩
  · rw [← h.sent_eq]
    exact Function.update_self ..
  · by_cases hij : i = j
    · left
      rw [← hij, h.held] at hfound
      exact (Option.some.inj hfound).symm
    · right
      have hplace := hleast i hi (by rw [h.held]; rfl)
      rw [h.pointer_eq] at hplace
      have hup := place_succ hi hj hij hplace
      refine ⟨fun heq => hij (heq.symm.trans hcurrentG), j + 1, by omega, ?_, ?_, ?_⟩
      · rw [grant_requests, hcurrentG, if_neg fun hpair => hij hpair.2]
        exact h.held
      · refine (Function.update_self ..).trans ?_
        rw [hcurrentG]
        exact Nat.mod_eq_of_lt (Nat.lt_of_le_of_lt hj c.nbIn_lt)
      · rw [← h.sent_eq]
        exact Function.update_self ..

/-- A step of the router: without a free slot the flit goes on waiting; with one it is sent, or moves up. -/
theorem Waits.doRoute (h : Waits o i f pointer sent s) (hs : Conserved c arrived s) (hsmall : c.nbIn ≤ 2 ^ 31)
    (input : RouterInput τ α) :
    input.free o = false ∧ Waits o i f pointer sent (doRoute c s input) ∨
    input.free o = true ∧ ∃ g, (Router.doRoute c s input).sent o = sent ++ [g] ∧
      (g = f ∨ g.currentInputPortID ≠ i ∧ ∃ pointer', place c.nbIn pointer' i < place c.nbIn pointer i ∧
        Waits o i f pointer' (sent ++ [g]) (Router.doRoute c s input)) := by
  have hports : ∀ j ∈ List.range c.nbIn, j < c.nbIn := fun j hj => List.mem_range.mp hj
  have hmem : o ∈ c.outputPorts := (hs.held h.held).2.2.2 ▸ c.mapped f.targetId
  obtain ⟨before, after, hsplit⟩ := List.append_of_mem hmem
  have hnodup := c.nodup
  rw [hsplit, List.nodup_append] at hnodup
  have hbefore : o ∉ before := fun hin => hnodup.2.2 o hin o List.mem_cons_self rfl
  have hafter : o ∉ after := (List.nodup_cons.mp hnodup.2.1).1
  -- the flit waits when the loop over the outputs comes to its own
  have harrive : Waits o i f pointer sent (s.arrive input) := ⟨h.held, h.pointer_eq, h.sent_eq⟩
  have hread := harrive.readInputs (hs.arrive input) hports
  have hconserved := ((hs.arrive input).readInputs hports).sendOutputs input.free before
  have hown := hread.sendOutputs (c := c) input.free hbefore
  have hroute : Router.doRoute c s input = after.foldl (Router.sendOutput c input.free)
      (Router.sendOutput c input.free (before.foldl (Router.sendOutput c input.free)
        ((List.range c.nbIn).foldl (Router.readInput c) (s.arrive input))) o) := by
    unfold Router.doRoute
    rw [hsplit, List.foldl_append, List.foldl_cons]
  rw [hroute]
  cases hfree : input.free o with
  | false =>
    left
    refine ⟨rfl, Waits.sendOutputs ?_ input.free hafter⟩
    unfold Router.sendOutput at hown ⊢
    rw [if_neg (by rw [hfree]; exact Bool.false_ne_true)]
    exact hown
  | true =>
    right
    obtain ⟨g, hsent, hcase⟩ := hown.grant hconserved hsmall hfree
    refine ⟨rfl, g, (sendOutputs_sent _ input.free hafter).trans hsent, hcase.imp_right ?_⟩
    rintro ⟨hne, pointer', hplace, hwaits⟩
    exact ⟨hne, pointer', hplace, hwaits.sendOutputs input.free hafter⟩

/-- What was sent stays sent. -/
theorem sendOutput_extends (s : Router τ α) (free : ℕ → Bool) (o o' : ℕ) :
    s.sent o <+: (Router.sendOutput c free s o').sent o := by
  by_cases ho : o = o'
  · unfold Router.sendOutput
    split
    · cases roundRobinSearch (s.requestsPerOutputPort o') (s.roundRobinStates o') c.nbIn with
      | none => exact List.prefix_refl _
      | some g =>
        change s.sent o <+: Function.update s.sent o' (s.sent o' ++ [g]) o
        rw [ho, Function.update_self]
        exact List.prefix_append _ _
    · exact List.prefix_refl _
  · exact ⟨[], (List.append_nil _).trans (sendOutput_sent s free ho).symm⟩

theorem readInputs_sent (s : Router τ α) (ports : List ℕ) : (ports.foldl (Router.readInput c) s).sent = s.sent := by
  induction ports generalizing s with
  | nil => rfl
  | cons i ports ih =>
    refine (ih _).trans ?_
    rcases readInput_eq (c := c) s i with heq | ⟨f, rest, -, -, heq⟩ <;> rw [heq]

theorem doRoute_extends (s : Router τ α) (input : RouterInput τ α) (o : ℕ) :
    s.sent o <+: (Router.doRoute c s input).sent o := by
  have hsends : ∀ (ports : List ℕ) (t : Router τ α), t.sent o <+: (ports.foldl (Router.sendOutput c input.free) t).sent o := by
    intro ports
    induction ports with
    | nil => exact fun t => List.prefix_refl _
    | cons o' ports ih => exact fun t => (sendOutput_extends t input.free o o').trans (ih _)
  have hread := readInputs_sent (c := c) (s.arrive input) (List.range c.nbIn)
  unfold Router.doRoute
  refine List.IsPrefix.trans ?_ (hsends c.outputPorts _)
  rw [hread]
  exact List.prefix_refl _

theorem run_extends (s : Router τ α) (inputs : List (RouterInput τ α)) (o : ℕ) :
    s.sent o <+: (Router.run c s inputs).sent o := by
  induction inputs generalizing s with
  | nil => exact List.prefix_refl _
  | cons input inputs ih => exact (doRoute_extends s input o).trans (ih _)

/-- A flit waits for at most as many grants as its place. -/
theorem Waits.run (h : Waits o i f pointer sent s) (hs : Conserved c arrived s) (hsmall : c.nbIn ≤ 2 ^ 31)
    (after : List (RouterInput τ α)) :
    ∃ flits, (Router.run c s after).sent o = sent ++ flits ∧
      (flits.takeWhile fun g => g.currentInputPortID ≠ i).length ≤ place c.nbIn pointer i ∧
      (∀ g, (flits.dropWhile fun g => g.currentInputPortID ≠ i).head? = some g → g = f) ∧
      ((∀ g ∈ flits, g.currentInputPortID ≠ i) →
        flits.length = (after.filter fun input => input.free o).length) := by
  induction after generalizing pointer sent arrived s with
  | nil => exact ⟨[], h.sent_eq.trans (List.append_nil _).symm, Nat.zero_le _, nofun, fun _ => rfl⟩
  | cons input after ih =>
    rcases h.doRoute hs hsmall input with ⟨hbusy, hwaits⟩ | ⟨hfree, g, hsent, hcase⟩
    · obtain ⟨flits, hflits, hbound, hnext, hcount⟩ := ih hwaits (hs.doRoute input)
      refine ⟨flits, hflits, hbound, hnext, ?_⟩
      rw [List.filter_cons_of_neg (by rw [hbusy]; exact Bool.false_ne_true)]
      exact hcount
    · rcases hcase with rfl | ⟨hne, pointer', hplace, hwaits⟩
      · -- the flit is sent, whatever comes after it
        have hcurrent := (hs.held h.held).2.1
        obtain ⟨rest, hrest⟩ := run_extends (c := c) (Router.doRoute c s input) after o
        rw [hsent, List.append_assoc] at hrest
        refine ⟨g :: rest, hrest.symm, ?_, ?_, fun hnone => absurd hcurrent (hnone g List.mem_cons_self)⟩
        · rw [List.takeWhile_cons_of_neg (by simpa using hcurrent)]
          exact Nat.zero_le _
        · rw [List.dropWhile_cons_of_neg (by simpa using hcurrent)]
          intro g' hg'
          exact (Option.some.inj hg').symm
      · obtain ⟨flits, hflits, hbound, hnext, hcount⟩ := ih hwaits (hs.doRoute input)
        refine ⟨g :: flits, ?_, ?_, ?_, fun hnone => ?_⟩
        · refine hflits.trans ?_
          rw [List.append_assoc, List.singleton_append]
        · rw [List.takeWhile_cons_of_pos (by simpa using hne), List.length_cons]
          omega
        · rw [List.dropWhile_cons_of_pos (by simpa using hne)]
          exact hnext
        · have hfilter : ((input :: after).filter fun input => input.free o) =
              input :: after.filter fun input => input.free o := List.filter_cons_of_pos hfree
          rw [hfilter, List.length_cons, List.length_cons,
            hcount fun g' hg' => hnone g' (List.mem_cons_of_mem g hg')]

/-- Up to `2 ^ 31` inputs every run is fair. -/
theorem runsFair_of_le (hsmall : c.nbIn ≤ 2 ^ 31) (inputs : List (RouterInput τ α)) : RunsFair c inputs := by
  refine ⟨?_, fun before after hsplit o i f hf => ?_⟩
  · have hrun := (init_conserved (c := c) (α := α)).run inputs
    simp only [List.nil_append] at hrun
    exact hrun
  · have hs := (init_conserved (c := c) (α := α)).run before
    have hwaits : Waits o i f _ _ (Router.run c init before) := ⟨hf, rfl, rfl⟩
    obtain ⟨flits, hflits, hbound, hnext, hcount⟩ := hwaits.run hs hsmall after
    have hrun : Router.run c init inputs = Router.run c (Router.run c init before) after := by
      rw [hsplit]
      exact List.foldl_append ..
    refine ⟨flits, ?_, ?_, hnext, hcount⟩
    · rw [hrun]
      exact hflits
    · exact Nat.lt_of_le_of_lt hbound (place_lt (Nat.zero_lt_of_lt (hs.held hf).1))

end Fairness

section Overflow

variable {c} {s : Router τ α}

/-- Inputs with an empty fifo are not read. -/
theorem readInputs_quiet {ports : List ℕ} (hports : ∀ i ∈ ports, s.inputFifos i = []) :
    ports.foldl (readInput c) s = s := by
  induction ports with
  | nil => rfl
  | cons i ports ih =>
    have hread : readInput c s i = s := by
      rcases readInput_eq (c := c) s i with heq | ⟨f, rest, -, hfifo, -⟩
      · exact heq
      · rw [hports i List.mem_cons_self] at hfifo
        cases hfifo
    rw [List.foldl_cons, hread]
    exact ih fun j hj => hports j (List.mem_cons_of_mem i hj)

/-- Outputs for which the search finds nothing send nothing. -/
theorem sendOutputs_quiet (free : ℕ → Bool) {ports : List ℕ}
    (hports : ∀ o ∈ ports, roundRobinSearch (s.requestsPerOutputPort o) (s.roundRobinStates o) c.nbIn = none) :
    ports.foldl (sendOutput c free) s = s := by
  induction ports with
  | nil => rfl
  | cons o ports ih =>
    have hsend : sendOutput c free s o = s := by
      unfold sendOutput
      rw [hports o List.mem_cons_self]
      exact ite_self s
    rw [List.foldl_cons, hsend]
    exact ih fun o' ho' => hports o' (List.mem_cons_of_mem o ho')

/-- A router without flits on its fifos and in its buffer, apart from its last input. -/
structure LastOnly (c : RouterConfig τ) (o : ℕ) (held : Option (Flit τ α)) (pointer : ℕ) (sent : List (Flit τ α))
    (s : Router τ α) : Prop where
  fifos : ∀ i, s.inputFifos i = []
  buffer : s.requestsBeeingRouted (c.nbIn - 1) = held
  byOutput : ∀ o' i, s.requestsPerOutputPort o' i = if o' = o ∧ i = c.nbIn - 1 then held else none
  pointer_eq : s.roundRobinStates o = pointer
  sent_eq : s.sent o = sent

/-- A flit for the last input, and free slots everywhere. -/
def atLast (c : RouterConfig τ) (f : Flit τ α) : RouterInput τ α :=
  ⟨fun i => if i = c.nbIn - 1 then [f] else [], fun _ => true⟩

/-- No flit, and free slots everywhere. -/
def idle : RouterInput τ α := ⟨fun _ => [], fun _ => true⟩

theorem roundRobinSearch_none {β : Type} {requests : ℕ → Option β} {counter nbIn : ℕ}
    (h : ∀ k < nbIn, requests ((k + counter) % portIds % nbIn) = none) :
    roundRobinSearch requests counter nbIn = none :=
  List.findSome?_eq_none_iff.mpr fun k hk => h k (List.mem_range.mp hk)

/-- A step in which the search of the output does not look at the last input leaves the flit where it is.
-/
theorem LastOnly.stuck {o pointer : ℕ} {f : Flit τ α} {sent : List (Flit τ α)} (h : LastOnly c o (some f) pointer sent s)
    (hmiss : ∀ k < c.nbIn, (k + pointer) % portIds % c.nbIn ≠ c.nbIn - 1) :
    LastOnly c o (some f) pointer sent (doRoute c s idle) := by
  have harrive : s.arrive idle = s := by
    unfold arrive idle
    simp only [List.append_nil]
  have hread : (List.range c.nbIn).foldl (readInput c) s = s := readInputs_quiet fun i _ => h.fifos i
  unfold doRoute
  rw [harrive, hread, sendOutputs_quiet]
  · exact h
  · intro o' _
    refine roundRobinSearch_none fun k hk => ?_
    rw [h.byOutput]
    by_cases ho : o' = o
    · rw [ho, h.pointer_eq, if_neg fun hpair => hmiss k hk hpair.2]
    · rw [if_neg fun hpair => ho hpair.1]

/-- The last input is read. -/
theorem LastOnly.read {o pointer : ℕ} {f : Flit τ α} {sent : List (Flit τ α)} (h : LastOnly c o none pointer sent s)
    (hpos : 0 < c.nbIn) (ho : outPort c f = o) :
    LastOnly c o (some (stamp (c.nbIn - 1) f)) pointer sent
      ((List.range c.nbIn).foldl (readInput c) (s.arrive (atLast c f))) := by
  have hrange : List.range c.nbIn = List.range (c.nbIn - 1) ++ [c.nbIn - 1] := by
    rw [← List.range_succ, Nat.succ_eq_add_one, Nat.sub_add_cancel hpos]
  have hfifos : ∀ i, (s.arrive (atLast c f)).inputFifos i = if i = c.nbIn - 1 then [f] else [] := by
    intro i
    change s.inputFifos i ++ (if i = c.nbIn - 1 then [f] else []) = _
    rw [h.fifos i, List.nil_append]
  have hlast := hfifos (c.nbIn - 1)
  rw [if_pos rfl] at hlast
  have hquiet : (List.range (c.nbIn - 1)).foldl (readInput c) (s.arrive (atLast c f)) = s.arrive (atLast c f) := by
    refine readInputs_quiet fun i hi => ?_
    rw [hfifos, if_neg (Nat.ne_of_lt (List.mem_range.mp hi))]
  rw [hrange, List.foldl_append, hquiet, List.foldl_cons, List.foldl_nil]
  rcases readInput_eq (c := c) (s.arrive (atLast c f)) (c.nbIn - 1) with heq | ⟨g, rest, -, hfifo, heq⟩
  · -- nothing of the last input is in the buffer, and its fifo has the flit
    exfalso
    have hbuffer : (s.arrive (atLast c f)).requestsBeeingRouted (c.nbIn - 1) = none := h.buffer
    unfold readInput at heq
    rw [hbuffer, hlast] at heq
    have hnil := congrFun (congrArg inputFifos heq) (c.nbIn - 1)
    dsimp only at hnil
    rw [Function.update_self, hlast] at hnil
    cases hnil
  · rw [hlast] at hfifo
    obtain ⟨rfl, rfl⟩ := List.cons.inj hfifo
    rw [heq]
    refine ⟨fun i => ?_, Function.update_self .., fun o' i => ?_, h.pointer_eq, h.sent_eq⟩
    · dsimp only
      by_cases hi : i = c.nbIn - 1
      · rw [hi, Function.update_self]
      · rw [Function.update_of_ne hi, hfifos, if_neg hi]
    · dsimp only
      rw [update_requests, ho]
      by_cases hpair : o' = o ∧ i = c.nbIn - 1
      · rw [if_pos hpair, if_pos hpair]
      · rw [if_neg hpair, if_neg hpair]
        exact (h.byOutput o' i).trans (if_neg hpair)

/-- A flit that the search does not find stays. -/
theorem LastOnly.keep {o pointer : ℕ} {f : Flit τ α} {sent : List (Flit τ α)} (h : LastOnly c o none pointer sent s)
    (hpos : 0 < c.nbIn) (ho : outPort c f = o)
    (hmiss : ∀ k < c.nbIn, (k + pointer) % portIds % c.nbIn ≠ c.nbIn - 1) :
    LastOnly c o (some (stamp (c.nbIn - 1) f)) pointer sent (doRoute c s (atLast c f)) := by
  have hread := h.read hpos ho
  unfold doRoute
  rw [sendOutputs_quiet]
  · exact hread
  · intro o' _
    refine roundRobinSearch_none fun k hk => ?_
    rw [hread.byOutput]
    by_cases ho' : o' = o
    · rw [ho', hread.pointer_eq, if_neg fun hpair => hmiss k hk hpair.2]
    · rw [if_neg fun hpair => ho' hpair.1]

/-- The first flit of the last input is found. -/
theorem LastOnly.first {o : ℕ} {f : Flit τ α} {sent : List (Flit τ α)} (h : LastOnly c o none 0 sent s)
    (hpos : 0 < c.nbIn) (ho : outPort c f = o) :
    LastOnly c o none c.nbIn (sent ++ [stamp (c.nbIn - 1) f]) (doRoute c s (atLast c f)) := by
  obtain ⟨before, after, hsplit⟩ := List.append_of_mem (c.mapped f.targetId)
  change c.outputPorts = before ++ outPort c f :: after at hsplit
  rw [ho] at hsplit
  have hnodup := c.nodup
  rw [hsplit, List.nodup_append] at hnodup
  have hread := h.read hpos ho
  generalize hs₁ : (List.range c.nbIn).foldl (readInput c) (s.arrive (atLast c f)) = s₁ at hread
  have hbefore : before.foldl (sendOutput c (atLast c f).free) s₁ = s₁ := by
    refine sendOutputs_quiet _ fun o' ho' => roundRobinSearch_none fun k _ => ?_
    rw [hread.byOutput, if_neg fun hpair => hnodup.2.2 o' ho' o List.mem_cons_self hpair.1]
  have hsearch : roundRobinSearch (s₁.requestsPerOutputPort o) (s₁.roundRobinStates o) c.nbIn =
      some (stamp (c.nbIn - 1) f) := by
    cases hfound : roundRobinSearch (s₁.requestsPerOutputPort o) (s₁.roundRobinStates o) c.nbIn with
    | none =>
      have hnone := List.findSome?_eq_none_iff.mp hfound (c.nbIn - 1) (List.mem_range.mpr (by omega))
      have hlt := c.nbIn_lt
      have hround : (c.nbIn - 1 + 0) % portIds % c.nbIn = c.nbIn - 1 := by
        rw [Nat.add_zero, Nat.mod_eq_of_lt (show c.nbIn - 1 < portIds by omega),
          Nat.mod_eq_of_lt (show c.nbIn - 1 < c.nbIn by omega)]
      rw [hread.pointer_eq, hround, hread.byOutput, if_pos ⟨rfl, rfl⟩] at hnone
      cases hnone
    | some g =>
      obtain ⟨i, hi⟩ := exists_of_roundRobinSearch hfound
      rw [hread.byOutput] at hi
      by_cases hpair : o = o ∧ i = c.nbIn - 1
      · rw [if_pos hpair] at hi
        exact hi.symm
      · rw [if_neg hpair] at hi
        cases hi
  have hsend : sendOutput c (atLast c f).free s₁ o = s₁.grant o (stamp (c.nbIn - 1) f) := by
    unfold sendOutput
    rw [if_pos (show (atLast c f).free o = true from rfl), hsearch]
  have hempty : ∀ o' i, (s₁.grant o (stamp (c.nbIn - 1) f)).requestsPerOutputPort o' i = none := by
    intro o' i
    rw [grant_requests, hread.byOutput]
    change (if o' = o ∧ i = c.nbIn - 1 then none else _) = _
    by_cases hpair : o' = o ∧ i = c.nbIn - 1
    · rw [if_pos hpair]
    · rw [if_neg hpair, if_neg hpair]
  have hafter : after.foldl (sendOutput c (atLast c f).free) (s₁.grant o (stamp (c.nbIn - 1) f)) =
      s₁.grant o (stamp (c.nbIn - 1) f) :=
    sendOutputs_quiet _ fun o' _ => roundRobinSearch_none fun k _ => hempty o' _
  unfold doRoute
  rw [hs₁, hsplit, List.foldl_append, hbefore, List.foldl_cons, hsend, hafter]
  refine ⟨hread.fifos, Function.update_self .., fun o' i => ?_, ?_, ?_⟩
  · rw [hempty, ite_self]
  · refine (Function.update_self ..).trans ?_
    change (c.nbIn - 1 + 1) % portIds = c.nbIn
    rw [Nat.sub_add_cancel hpos]
    exact Nat.mod_eq_of_lt c.nbIn_lt
  · refine (Function.update_self ..).trans ?_
    rw [hread.sent_eq]

/-- From more than `2 ^ 31` inputs on the search behind the last input wraps before it comes to it again. -/
theorem search_misses (hbig : 2 ^ 31 < c.nbIn) {k : ℕ} (hk : k < c.nbIn) :
    (k + c.nbIn) % portIds % c.nbIn ≠ c.nbIn - 1 := by
  have hlt := c.nbIn_lt
  have hids : portIds = 2 ^ 32 := rfl
  by_cases hwrap : k + c.nbIn < portIds
  · rw [Nat.mod_eq_of_lt hwrap, Nat.add_mod_right, Nat.mod_eq_of_lt hk]
    omega
  · rw [Nat.mod_eq_sub_mod (Nat.not_lt.mp hwrap), Nat.mod_eq_of_lt (show k + c.nbIn - portIds < portIds by omega),
      Nat.mod_eq_of_lt (show k + c.nbIn - portIds < c.nbIn by omega)]
    omega

/-- Two flits for the last input, one after the other: the second one stays in the buffer of a router with more than
`2 ^ 31` inputs. -/
theorem not_runsFair_of_lt (hbig : 2 ^ 31 < c.nbIn) (f : Flit τ α) :
    ¬ RunsFair c ([atLast c f, atLast c f] ++ [idle]) := by
  intro hfair
  have hpos : 0 < c.nbIn := by omega
  have hinit : LastOnly c (outPort c f) none 0 [] (init : Router τ α) :=
    ⟨fun _ => rfl, rfl, fun _ _ => (ite_self _).symm, rfl, rfl⟩
  have hheld := (hinit.first hpos rfl).keep hpos rfl fun k hk => search_misses hbig hk
  have hstuck := hheld.stuck fun k hk => search_misses hbig hk
  have hwaiting : (run c init [atLast c f, atLast c f]).requestsPerOutputPort (outPort c f) (c.nbIn - 1) =
      some (stamp (c.nbIn - 1) f) := (hheld.byOutput _ _).trans (if_pos ⟨rfl, rfl⟩)
  obtain ⟨flits, hsent, -, -, hbusy⟩ := hfair.fair _ [idle] rfl _ _ _ hwaiting
  have hnone : flits = [] := by
    have hlength := congrArg List.length hsent
    change ((doRoute c (run c init [atLast c f, atLast c f]) idle).sent (outPort c f)).length = _ at hlength
    rw [List.length_append] at hlength
    have hbefore : (run c init [atLast c f, atLast c f]).sent (outPort c f) = [] ++ [stamp (c.nbIn - 1) f] :=
      hheld.sent_eq
    have hafter : (doRoute c (run c init [atLast c f, atLast c f]) idle).sent (outPort c f) =
        [] ++ [stamp (c.nbIn - 1) f] := hstuck.sent_eq
    rw [hbefore, hafter] at hlength
    exact List.eq_nil_of_length_eq_zero (by omega)
  rw [hnone] at hbusy
  have hone : 0 = 1 := hbusy nofun
  cases hone

end Overflow

/-- A router keeps, orders and sends the flits as it should in every run exactly if it has no more than `2 ^ 31`
inputs. -/
theorem runsFair_iff (f : Flit τ α) :
    (∀ inputs : List (RouterInput τ α), RunsFair c inputs) ↔ c.nbIn ≤ 2 ^ 31 := by
  constructor
  · intro hfair
    by_contra hbig
    exact not_runsFair_of_lt (Nat.not_le.mp hbig) f (hfair _)
  · exact runsFair_of_le

/-- `2 ^ 31 + 1` inputs and one output with a free slot in every step: of two flits for the last input, one a step, the
second is never sent. -/
theorem not_runsFair_many :
    ∃ c : RouterConfig Unit, c.nbIn = 2 ^ 31 + 1 ∧ c.outputPorts = [0] ∧
      ¬ RunsFair c ([atLast c ⟨(), (), 0⟩, atLast c ⟨(), (), 0⟩] ++ [idle] : List (RouterInput Unit Unit)) :=
  ⟨⟨2 ^ 31 + 1, [0], fun _ => 0, by decide, by decide, fun _ => List.mem_singleton.mpr rfl⟩, rfl, rfl,
    not_runsFair_of_lt (show 2 ^ 31 < 2 ^ 31 + 1 by omega) _⟩

end Router

end Vpsim.Connect
