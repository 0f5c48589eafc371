import Vpsim.Connect.NetworkTiming
import Vpsim.Connect.XYRouting

/-!
# The contention model and the bounds of its containers

`ComputePacketLatency` stays inside its containers as long as it finds what it looks for when a
packet waits behind another one: the packet in front has to be the one saved at the place that its
id gives, and when the two part after the router, the packet whose wait is read has to be there, in
the buffer of the router and in the buffer that blocks. The step back is made in the buffer of the
router, by a place that was measured in the other buffer.
-/

namespace Vpsim.Connect

open Vpsim.Lib

/-- A step that succeeds with a result of the given kind. -/
def okAnd {ε α : Type} (p : α → Bool) : Except ε α → Bool
  | .ok a => p a
  | .error _ => false

/-- A packet behind `prevPkt` at a router finds the way of this packet, and if they part, it is not
blocked in front of the next router of `prevPkt`, or the packet it waits for is in both buffers. -/
def clearBehind (c : NocConfig) (s : NocState) (prevPkt : ℕ) (hop next : Hop) : Bool :=
  okAnd (fun onward => decide (onward = next) || decide ((ids s onward).idxOf prevPkt < bufferFlits c) ||
      okAnd (fun before => decide (before ∈ ids s onward)) (packetBefore (ids s hop) prevPkt (placesBack c)))
    (hopAfter s.packetBuffer prevPkt hop)

/-- The same for the packet in front of `id`, if there is one. -/
def clearAhead (c : NocConfig) (s : NocState) (id : ℕ) (hop next : Hop) : Bool :=
  decide ((ids s hop).head? = some id) ||
    okAnd (fun prevPkt => clearBehind c s prevPkt hop next) (packetBefore (ids s hop) id 1)

/-- The same at each router that the packet leaves for another one. -/
def clearRoute (c : NocConfig) (s : NocState) (id : ℕ) : Route → Bool
  | hop :: next :: rest => clearAhead c s id hop next && clearRoute c s id (next :: rest)
  | _ => true

/-- The same for every packet of the interval. -/
def ClearInterval (c : NocConfig) (s : NocState) : Prop :=
  ∀ packet ∈ s.packetBuffer, clearRoute c s packet.id packet.path = true

instance (c : NocConfig) (s : NocState) : Decidable (ClearInterval c s) :=
  inferInstanceAs (Decidable (∀ packet ∈ s.packetBuffer, _))

/-- `ComputePacketLatency` returns, and every output buffer holds the same packets as before. -/
def StaysInside (c : NocConfig) (s : NocState) : Prop :=
  ∃ total s', computePacketLatency c s = .ok total s' ∧ ∀ hop, ids s' hop = ids s hop

/-- The packets are the same, in the packet buffer and in the output buffers. -/
structure SameIds (s s' : NocState) : Prop where
  packets : s'.packetBuffer = s.packetBuffer
  ids : ∀ hop, ids s' hop = ids s hop

/-- No packet is removed. -/
structure Grows (s s' : NocState) : Prop where
  packets : s'.packetBuffer = s.packetBuffer
  ids : ∀ hop, ∀ k ∈ ids s hop, k ∈ Connect.ids s' hop

/-- A packet was put into an output buffer. -/
def Inserted (s s' : NocState) : Prop := ∃ hop k, k ∉ ids s hop ∧ k ∈ ids s' hop

instance : IsPreorder NocState SameIds where
  refl _ := ⟨rfl, fun _ => rfl⟩
  trans _ _ _ h h' := ⟨h'.packets.trans h.packets, fun hop => (h'.ids hop).trans (h.ids hop)⟩

instance : IsPreorder NocState Grows where
  refl _ := ⟨rfl, fun _ _ hk => hk⟩
  trans _ _ _ h h' := ⟨h'.packets.trans h.packets, fun hop k hk => h'.ids hop k (h.ids hop k hk)⟩

section Elementary

variable {c : NocConfig} {s s' : NocState} {hop : Hop} {id wait : ℕ}

/-- The condition is about the packets only. -/
theorem SameIds.clearBehind (h : SameIds s s') (prevPkt : ℕ) (hop next : Hop) :
    clearBehind c s' prevPkt hop next = clearBehind c s prevPkt hop next := by
  unfold Connect.clearBehind
  rw [h.packets]
  simp only [h.ids]

/-- The condition is about the packets only. -/
theorem SameIds.clearRoute (h : SameIds s s') (id : ℕ) (path : Route) :
    clearRoute c s' id path = clearRoute c s id path := by
  induction path with
  | nil => rfl
  | cons hop rest ih =>
    cases rest with
    | nil => rfl
    | cons next rest =>
      unfold Connect.clearRoute clearAhead
      rw [ih, h.ids]
      simp only [h.clearBehind]

/-- Changing one output buffer changes the ids at its hop only. -/
theorem ids_update {buffer : OutputBuffer} (hop' : Hop) :
    ids { s with noc := Function.update s.noc hop buffer } hop' = if hop' = hop then buffer.keys else ids s hop' := by
  unfold ids
  by_cases h : hop' = hop
  · rw [if_pos h, h]
    exact congrArg SortedMap.keys (Function.update_self hop buffer s.noc)
  · rw [if_neg h]
    exact congrArg SortedMap.keys (Function.update_of_ne h buffer s.noc)

/-- Setting the wait of a packet that is there adds no packet. -/
theorem sameIds_setWait (h : id ∈ ids s hop) :
    SameIds s { s with noc := Function.update s.noc hop ((s.noc hop).set id wait) } := by
  refine ⟨rfl, fun hop' => ?_⟩
  rw [ids_update]
  split
  · rename_i heq
    rw [heq]
    exact SortedMap.keys_set_of_mem h
  · rfl

/-- Reading the wait of a packet that is there adds no packet. -/
theorem sameIds_readWait (h : id ∈ ids s hop) :
    SameIds s { s with noc := Function.update s.noc hop ((s.noc hop).insert id wait) } := by
  refine ⟨rfl, fun hop' => ?_⟩
  rw [ids_update]
  split
  · rename_i heq
    rw [heq, SortedMap.insert_of_mem h]
    rfl
  · rfl

/-- Reading the wait of a packet that is not there puts it there. -/
theorem inserted_readWait (h : id ∉ ids s hop) :
    Inserted s { s with noc := Function.update s.noc hop ((s.noc hop).insert id wait) } := by
  refine ⟨hop, id, h, ?_⟩
  rw [ids_update, if_pos rfl]
  exact SortedMap.mem_keys_insert.2 (.inl rfl)

/-- No packet is removed by a change of waits. -/
theorem keeps_setWait (hop : Hop) (id wait : ℕ) : Keeps Grows (setWait hop id wait) := by
  apply Keeps.modify
  refine fun s => ⟨rfl, fun hop' k hk => ?_⟩
  rw [ids_update]
  split
  · rename_i heq
    rw [heq] at hk
    exact SortedMap.mem_keys_set.2 (.inr hk)
  · exact hk

/-- No packet is removed by reading a wait. -/
theorem keeps_readWait (hop : Hop) (id : ℕ) : Keeps Grows (readWait hop id) := by
  apply Keeps.bind
  · apply Keeps.modify
    refine fun s => ⟨rfl, fun hop' k hk => ?_⟩
    rw [ids_update]
    split
    · rename_i heq
      rw [heq] at hk
      exact SortedMap.mem_keys_insert.2 (.inr hk)
    · exact hk
  · intro _
    exact Keeps.getBind fun _ => Keeps.pure _

/-- Counting latencies leaves the packets alone. -/
theorem keeps_addRouterLatency (c : NocConfig) (hop : Hop) (wait : ℕ) :
    Keeps SameIds (addRouterLatency c hop wait) :=
  Keeps.ite (fun _ => Keeps.modify fun _ => ⟨rfl, fun _ => rfl⟩) fun _ => Keeps.throw _

/-- Same packets, so none is removed. -/
theorem SameIds.grows (h : SameIds s s') : Grows s s' :=
  ⟨h.packets, fun hop k hk => by rw [h.ids hop]; exact hk⟩

/-- The computation removes no packet. -/
theorem waitStepsKeep_grows (c : NocConfig) : WaitStepsKeep c Grows where
  setWait := keeps_setWait
  readWait := keeps_readWait
  addRouterLatency hop wait := (keeps_addRouterLatency c hop wait).mono fun _ _ => SameIds.grows
  setLatency _ := Keeps.modify fun _ => ⟨rfl, fun _ _ hk => hk⟩

end Elementary

section Steps

variable {c : NocConfig} {s : NocState} {hop next : Hop} {rest : Route} {id : ℕ} {l : PacketWait}

/-- Storing the wait of a packet that is there ends without a fault and adds no packet. -/
theorem wp_setWait (wait : ℕ) (h : id ∈ ids s hop) :
    wp (setWait hop id wait) (fun _ => SameIds s) (fun _ _ => False) s := sameIds_setWait h

/-- Reading the wait of a packet that is there ends without a fault and adds no packet. -/
theorem wp_readWait (h : id ∈ ids s hop) :
    wp (readWait hop id) (fun _ => SameIds s) (fun _ _ => False) s := sameIds_readWait h

/-- A latency is counted without a fault at a router that has a counter. -/
theorem wp_addRouterLatency (wait : ℕ) (h : routerIndex c hop.pos < routers c) :
    wp (addRouterLatency c hop wait) (fun _ => SameIds s) (fun _ _ => False) s :=
  wp.ite_pos h ⟨rfl, fun _ => rfl⟩

/-- The packet is still there. -/
theorem SameIds.mem {s s' : NocState} (h : SameIds s s') {k : ℕ} (hk : k ∈ Connect.ids s hop) :
    k ∈ Connect.ids s' hop := by
  rw [h.ids hop]
  exact hk

/-- Adding the wait for a packet that is in the buffer that blocks adds no packet. -/
theorem wp_addBlocked {onward : Hop} {before : ℕ} (hid : id ∈ ids s hop) (hin : routerIndex c hop.pos < routers c)
    (hbefore : before ∈ ids s onward) (result : ℕ → PacketWait) :
    wp (do
      let wait ← readWait onward before
      let own ← readWait hop id
      setWait hop id (own + wait)
      addRouterLatency c hop wait
      return result wait) (fun _ => SameIds s) (fun _ _ => False) s := by
  apply Keeps.wp_bind_of_rel (wp_readWait hbefore)
  intro wait s₁ h₁
  apply Keeps.wp_bind_of_rel (wp_readWait (h₁.mem hid))
  intro own s₂ h₂
  apply Keeps.wp_bind_of_rel (wp_setWait _ (h₂.mem (h₁.mem hid)))
  intro _ s₃ _
  apply Keeps.wp_bind_of_rel (wp_addRouterLatency wait hin)
  intro _ s₄ _
  exact refl_of SameIds s₄

/-- Adding the wait for a packet that is not in the buffer that blocks puts it there. -/
theorem wp_addBlocked_inserts {onward : Hop} {before : ℕ} (hbefore : before ∉ ids s onward)
    (result : ℕ → PacketWait) :
    wp (do
      let wait ← readWait onward before
      let own ← readWait hop id
      setWait hop id (own + wait)
      addRouterLatency c hop wait
      return result wait) (fun _ => Inserted s) (fun _ _ => True) s := by
  have hfirst : wp (readWait onward before) (fun _ => Inserted s) (fun _ _ => True) s := inserted_readWait hbefore
  apply hfirst.bind
  intro wait s₁ ⟨hop', k, hk, hk₁⟩
  have hkept : Keeps Grows (do
      let own ← readWait hop id
      setWait hop id (own + wait)
      addRouterLatency c hop wait
      return result wait) := by
    apply (keeps_readWait _ _).bind
    intro own
    apply (keeps_setWait _ _ _).bind
    intro _
    apply ((keeps_addRouterLatency c hop wait).mono fun _ _ => SameIds.grows).bind
    intro _
    exact Keeps.pure _
  apply (hkept s₁).imp
  · intro _ s' hgrows
    exact ⟨hop', k, hk, hgrows.ids hop' k hk₁⟩
  · exact fun _ _ _ => trivial

/-- Head of line blocking stays inside when the way behind the previous packet is clear. -/
theorem wp_headOfLine (hid : id ∈ ids s hop) (hin : routerIndex c hop.pos < routers c)
    (hclear : clearBehind c s l.prevPkt hop next = true) :
    wp (headOfLine c id hop (next :: rest) l) (fun _ => SameIds s) (fun _ _ => False) s := by
  unfold clearBehind at hclear
  apply wp.step
  change wp (ofExcept (hopAfter s.packetBuffer l.prevPkt hop) >>= _) _ _ s
  cases honward : hopAfter s.packetBuffer l.prevPkt hop with
  | error e =>
    rw [honward] at hclear
    cases hclear
  | ok onward =>
    rw [honward] at hclear
    change wp (if next ≠ onward ∧ bufferFlits c ≤ (ids s onward).idxOf l.prevPkt then _ else _) _ _ s
    by_cases hblocked : next ≠ onward ∧ bufferFlits c ≤ (ids s onward).idxOf l.prevPkt
    · apply wp.ite_pos hblocked
      change wp (ofExcept (packetBefore (ids s hop) l.prevPkt (placesBack c)) >>= _) _ _ s
      change (decide (onward = next) || decide ((ids s onward).idxOf l.prevPkt < bufferFlits c) || _) = true at hclear
      rw [decide_eq_false (Ne.symm hblocked.1), decide_eq_false (Nat.not_lt.2 hblocked.2)] at hclear
      change okAnd _ _ = true at hclear
      cases hbefore : packetBefore (ids s hop) l.prevPkt (placesBack c) with
      | error e =>
        rw [hbefore] at hclear
        cases hclear
      | ok before =>
        rw [hbefore] at hclear
        exact wp_addBlocked hid hin (of_decide_eq_true hclear) fun wait => { l with totalWait := l.totalWait + wait }
    · exact wp.ite_neg hblocked (refl_of SameIds s)

/-- Head of line blocking leaves a container or inserts a packet when the way behind the previous
packet is not clear. -/
theorem wp_headOfLine_inserts (hclear : clearBehind c s l.prevPkt hop next = false) :
    wp (headOfLine c id hop (next :: rest) l) (fun _ => Inserted s) (fun _ _ => True) s := by
  unfold clearBehind at hclear
  apply wp.step
  change wp (ofExcept (hopAfter s.packetBuffer l.prevPkt hop) >>= _) _ _ s
  cases honward : hopAfter s.packetBuffer l.prevPkt hop with
  | error e => exact trivial
  | ok onward =>
    rw [honward] at hclear
    obtain ⟨hfirst, hbefore⟩ := Bool.or_eq_false_iff.1 hclear
    obtain ⟨hnext, hflits⟩ := Bool.or_eq_false_iff.1 hfirst
    have hblocked : next ≠ onward ∧ bufferFlits c ≤ (ids s onward).idxOf l.prevPkt :=
      ⟨Ne.symm (of_decide_eq_false hnext), Nat.le_of_not_lt (of_decide_eq_false hflits)⟩
    change wp (if next ≠ onward ∧ bufferFlits c ≤ (ids s onward).idxOf l.prevPkt then _ else _) _ _ s
    apply wp.ite_pos hblocked
    change wp (ofExcept (packetBefore (ids s hop) l.prevPkt (placesBack c)) >>= _) _ _ s
    cases hresult : packetBefore (ids s hop) l.prevPkt (placesBack c) with
    | error e => exact trivial
    | ok before =>
      rw [hresult] at hbefore
      exact wp_addBlocked_inserts (of_decide_eq_false hbefore) fun wait => { l with totalWait := l.totalWait + wait }

/-- A packet that is not the first one has another one in front of it. -/
theorem packetBefore_one {l : List ℕ} {k : ℕ} (hk : k ∈ l) (hfirst : l.head? ≠ some k) :
    ∃ before, packetBefore l k 1 = .ok before := by
  have hlt := List.idxOf_lt_length_iff.2 hk
  have hpos : ¬ l.idxOf k < 1 := by
    intro hzero
    cases l with
    | nil => cases hk
    | cons first l =>
      apply hfirst
      by_cases heq : first = k
      · exact congrArg some heq
      · rw [List.idxOf_cons_ne _ heq] at hzero
        omega
  unfold packetBefore
  rw [if_neg hpos, List.getElem?_eq_getElem (by omega)]
  exact ⟨_, rfl⟩

/-- A packet that is put in after steps that keep the packets was put in by all of them. -/
theorem SameIds.inserted {s s' t : NocState} (h : SameIds s s') (hinserted : Inserted s' t) : Inserted s t := by
  obtain ⟨hop, k, hk, hk'⟩ := hinserted
  rw [h.ids hop] at hk
  exact ⟨hop, k, hk, hk'⟩

/-- For a packet behind another one, passing a router comes to finding the packet in front, and then head
of line blocking unless the route ends here. -/
theorem wp_passRouter_behind {Q : NocState → Prop} {E : NocFault → NocState → Prop} (hid : id ∈ ids s hop)
    (hin : routerIndex c hop.pos < routers c) (hfirst : (ids s hop).head? ≠ some id)
    (hrest : ∀ prevPkt l' s', packetBefore (ids s hop) id 1 = .ok prevPkt → l'.prevPkt = prevPkt → SameIds s s' →
      wp (if hop.port = .toLocal then return l' else headOfLine c id hop rest l') (fun _ => Q) E s') :
    wp (passRouter c id hop rest l) (fun _ => Q) E s := by
  obtain ⟨prevPkt, hprev⟩ := packetBefore_one hid hfirst
  apply wp.step
  rw [wp_get]
  dsimp only
  split
  · rename_i hempty
    unfold ids SortedMap.keys at hid
    rw [hempty] at hid
    cases hid
  · rename_i first tail hentries
    have hne : id ≠ first.1 := by
      intro heq
      apply hfirst
      unfold ids SortedMap.keys
      rw [hentries, heq]
      rfl
    apply wp.ite_neg hne
    change wp (ofExcept (packetBefore (ids s hop) id 1) >>= _) _ _ s
    rw [hprev]
    change wp (setWait hop id _ >>= fun _ => addRouterLatency c hop _ >>= fun _ => _) _ _ s
    apply wp.step
    apply (wp_setWait _ hid).imp
    · intro _ s₁ h₁
      apply wp.step
      apply (wp_addRouterLatency _ hin).imp
      · intro _ s₂ h₂
        exact hrest prevPkt _ s₂ hprev rfl (trans_of SameIds h₁ h₂)
      · exact fun _ _ hno => hno.elim
    · exact fun _ _ hno => hno.elim

/-- The first packet of an output buffer passes the router without a fault and without adding a packet.
-/
theorem wp_passRouter_first (hin : routerIndex c hop.pos < routers c) (hfirst : (ids s hop).head? = some id) :
    wp (passRouter c id hop rest l) (fun _ => SameIds s) (fun _ _ => False) s := by
  have hid : id ∈ ids s hop := List.mem_of_mem_head? hfirst
  apply wp.step
  rw [wp_get]
  dsimp only
  unfold ids SortedMap.keys at hfirst
  split
  · rename_i hempty
    rw [hempty] at hfirst
    cases hfirst
  · rename_i first tail hentries
    rw [hentries] at hfirst
    apply wp.ite_pos (Option.some.inj hfirst).symm
    apply Keeps.wp_bind_of_rel (wp_setWait _ hid)
    intro _ s₁ _
    apply Keeps.wp_bind_of_rel (wp_addRouterLatency _ hin)
    intro _ s₂ _
    exact refl_of SameIds s₂

/-- A packet passes the last router of its route without a fault and without adding a packet. -/
theorem wp_passRouter_local (hid : id ∈ ids s hop) (hin : routerIndex c hop.pos < routers c)
    (hport : hop.port = .toLocal) :
    wp (passRouter c id hop rest l) (fun _ => SameIds s) (fun _ _ => False) s := by
  by_cases hfirst : (ids s hop).head? = some id
  · exact wp_passRouter_first hin hfirst
  · apply wp_passRouter_behind hid hin hfirst
    intro _ _ s' _ _ hsame
    exact wp.ite_pos hport hsame

/-- Where the way ahead is clear, a packet passes the router without a fault and without adding a packet.
-/
theorem wp_passRouter (hid : id ∈ ids s hop) (hin : routerIndex c hop.pos < routers c)
    (hport : hop.port ≠ .toLocal) (hclear : clearAhead c s id hop next = true) :
    wp (passRouter c id hop (next :: rest) l) (fun _ => SameIds s) (fun _ _ => False) s := by
  by_cases hfirst : (ids s hop).head? = some id
  · exact wp_passRouter_first hin hfirst
  · apply wp_passRouter_behind hid hin hfirst
    intro prevPkt l' s' hprev hl' hsame
    apply wp.ite_neg hport
    unfold clearAhead at hclear
    rw [decide_eq_false hfirst, hprev] at hclear
    apply (wp_headOfLine (hsame.mem hid) hin ?_).mono fun _ _ => trans_of SameIds hsame
    rw [hsame.clearBehind, hl']
    exact hclear

/-- Where the way ahead is not clear, passing the router faults or puts a packet into a buffer. -/
theorem wp_passRouter_inserts (hid : id ∈ ids s hop) (hin : routerIndex c hop.pos < routers c)
    (hport : hop.port ≠ .toLocal) (hclear : clearAhead c s id hop next = false) :
    wp (passRouter c id hop (next :: rest) l) (fun _ => Inserted s) (fun _ _ => True) s := by
  obtain ⟨hfirst, hbehind⟩ := Bool.or_eq_false_iff.1 hclear
  apply wp_passRouter_behind hid hin (of_decide_eq_false hfirst)
  intro prevPkt l' s' hprev hl' hsame
  apply wp.ite_neg hport
  rw [hprev] at hbehind
  apply (wp_headOfLine_inserts ?_).mono fun _ _ => hsame.inserted
  rw [hsame.clearBehind, hl']
  exact hbehind

end Steps

/-- The last hop of a route, and no other, has the local port. -/
def EndsLocal : Route → Prop
  | [] => True
  | [hop] => hop.port = .toLocal
  | hop :: next :: rest => hop.port ≠ .toLocal ∧ EndsLocal (next :: rest)

/-- The packet is in the output buffers of a route through routers of the mesh. -/
structure OnRoute (c : NocConfig) (s : NocState) (id : ℕ) (path : Route) : Prop where
  ends : EndsLocal path
  present : ∀ hop ∈ path, id ∈ ids s hop
  inRange : InRange c path

/-- A packet on a route is on the rest of the route. -/
theorem OnRoute.tail {c : NocConfig} {s : NocState} {id : ℕ} {hop next : Hop} {rest : Route}
    (h : OnRoute c s id (hop :: next :: rest)) : OnRoute c s id (next :: rest) where
  ends := h.ends.2
  present hop hhop := h.present hop (List.mem_cons_of_mem _ hhop)
  inRange hop hhop := h.inRange hop (List.mem_cons_of_mem _ hhop)

/-- The packets stay on their routes. -/
theorem OnRoute.of_sameIds {c : NocConfig} {s s' : NocState} {id : ℕ} {path : Route} (h : OnRoute c s id path)
    (hsame : SameIds s s') : OnRoute c s' id path :=
  ⟨h.ends, fun hop hhop => hsame.mem (h.present hop hhop), h.inRange⟩

section Routes

variable {c : NocConfig} {s : NocState} {id : ℕ} {path : Route} {l : PacketWait}

/-- A packet follows a clear route without a fault and without adding a packet. -/
theorem wp_packetRoute (h : OnRoute c s id path) (hclear : clearRoute c s id path = true) :
    wp (packetRoute c id path l) (fun _ => SameIds s) (fun _ _ => False) s := by
  induction path generalizing s l with
  | nil => exact refl_of SameIds s
  | cons hop rest ih =>
    have hid := h.present hop List.mem_cons_self
    have hin := h.inRange hop List.mem_cons_self
    cases rest with
    | nil =>
      apply Keeps.wp_bind_of_rel (wp_passRouter_local hid hin h.ends)
      intro l' s' _
      exact refl_of SameIds s'
    | cons next rest =>
      obtain ⟨hahead, hrest⟩ := Bool.and_eq_true_iff.1 hclear
      apply Keeps.wp_bind_of_rel (wp_passRouter hid hin h.ends.1 hahead)
      intro l' s' hsame
      apply ih (h.tail.of_sameIds hsame)
      rw [hsame.clearRoute]
      exact hrest

/-- Following a packet along a route that is not clear faults or puts a packet into a buffer. -/
theorem wp_packetRoute_inserts (h : OnRoute c s id path) (hclear : clearRoute c s id path = false) :
    wp (packetRoute c id path l) (fun _ => Inserted s) (fun _ _ => True) s := by
  induction path generalizing s l with
  | nil => cases hclear
  | cons hop rest ih =>
    have hid := h.present hop List.mem_cons_self
    have hin := h.inRange hop List.mem_cons_self
    cases rest with
    | nil => cases hclear
    | cons next rest =>
      by_cases hahead : clearAhead c s id hop next = true
      · have hrest : clearRoute c s id (next :: rest) = false := by
          unfold clearRoute at hclear
          rw [hahead, Bool.true_and] at hclear
          exact hclear
        apply wp.step
        apply (wp_passRouter hid hin h.ends.1 hahead).imp
        · intro l' s' hsame
          apply (ih (h.tail.of_sameIds hsame) ?_).mono fun _ _ => hsame.inserted
          rw [hsame.clearRoute]
          exact hrest
        · exact fun _ _ hno => hno.elim
      · apply (wp_passRouter_inserts hid hin h.ends.1 (Bool.not_eq_true _ ▸ hahead)).bind
        intro l' s' ⟨hop', k, hk, hk'⟩
        apply ((waitStepsKeep_grows c).packetRoute id (next :: rest) l' s').imp
        · intro _ t hgrows
          exact ⟨hop', k, hk, hgrows.ids hop' k hk'⟩
        · exact fun _ _ _ => trivial

/-- The round for a packet on a clear route. -/
theorem wp_addPacket {packet : Packet} (total : ℕ) (h : OnRoute c s packet.id packet.path)
    (hclear : clearRoute c s packet.id packet.path = true) :
    wp (addPacket c total packet) (fun _ => SameIds s) (fun _ _ => False) s := by
  apply Keeps.wp_bind_of_rel (wp_packetRoute h hclear)
  intro l s' _
  exact ⟨rfl, fun _ => rfl⟩

/-- The round for a packet on a route that is not clear faults or puts a packet into a buffer. -/
theorem wp_addPacket_inserts {packet : Packet} (total : ℕ) (h : OnRoute c s packet.id packet.path)
    (hclear : clearRoute c s packet.id packet.path = false) :
    wp (addPacket c total packet) (fun _ => Inserted s) (fun _ _ => True) s := by
  apply (wp_packetRoute_inserts h hclear).bind
  intro l s' hinserted
  exact hinserted

/-- The rounds for packets on clear routes end without a fault and add no packet. -/
theorem wp_foldlM_addPacket {packets : List Packet} (total : ℕ)
    (h : ∀ packet ∈ packets, OnRoute c s packet.id packet.path)
    (hclear : ∀ packet ∈ packets, clearRoute c s packet.id packet.path = true) :
    wp (packets.foldlM (addPacket c) total) (fun _ => SameIds s) (fun _ _ => False) s := by
  induction packets generalizing s total with
  | nil => exact refl_of SameIds s
  | cons packet packets ih =>
    apply Keeps.wp_bind_of_rel
      (wp_addPacket total (h packet List.mem_cons_self) (hclear packet List.mem_cons_self))
    intro total' s' hsame
    apply ih
    · intro packet hpacket
      exact (h packet (List.mem_cons_of_mem _ hpacket)).of_sameIds hsame
    · intro packet hpacket
      rw [hsame.clearRoute]
      exact hclear packet (List.mem_cons_of_mem _ hpacket)

/-- The rounds for packets of which one is on a route that is not clear. -/
theorem wp_foldlM_addPacket_inserts {packets : List Packet} (total : ℕ)
    (h : ∀ packet ∈ packets, OnRoute c s packet.id packet.path)
    (hclear : ¬ ∀ packet ∈ packets, clearRoute c s packet.id packet.path = true) :
    wp (packets.foldlM (addPacket c) total) (fun _ => Inserted s) (fun _ _ => True) s := by
  induction packets generalizing s total with
  | nil => exact absurd (fun _ hmem => absurd hmem List.not_mem_nil) hclear
  | cons packet packets ih =>
    have hfirst := h packet List.mem_cons_self
    cases hpacket : clearRoute c s packet.id packet.path with
    | true =>
      apply wp.step
      apply (wp_addPacket total hfirst hpacket).imp
      · intro total' s' hsame
        apply (ih total' ?_ ?_).mono fun _ _ => hsame.inserted
        · intro packet hpacket
          exact (h packet (List.mem_cons_of_mem _ hpacket)).of_sameIds hsame
        · intro hall
          apply hclear
          intro packet' hpacket'
          rcases List.mem_cons.1 hpacket' with heq | hmem
          · rw [heq]
            exact hpacket
          · rw [← hsame.clearRoute]
            exact hall packet' hmem
      · exact fun _ _ hno => hno.elim
    | false =>
      apply (wp_addPacket_inserts total hfirst hpacket).bind
      intro total' s' ⟨hop, k, hk, hk'⟩
      apply ((waitStepsKeep_grows c).foldlM_addPacket packets total' s').imp
      · intro _ t hgrows
        exact ⟨hop, k, hk, hgrows.ids hop k hk'⟩
      · exact fun _ _ _ => trivial

end Routes

/-- The packets of the interval are in the output buffers of their routes. -/
def Recorded (c : NocConfig) (s : NocState) : Prop :=
  ∀ packet ∈ s.packetBuffer, OnRoute c s packet.id packet.path

/-- When the packets are recorded, the computation stays inside exactly when all routes are clear. -/
theorem Recorded.staysInside_iff {c : NocConfig} {s : NocState} (h : Recorded c s) :
    StaysInside c s ↔ ClearInterval c s := by
  constructor
  · intro ⟨total, s', hrun, hsame⟩
    apply Classical.byContradiction
    intro hclear
    have hwp := wp_foldlM_addPacket_inserts 0 h hclear
    obtain ⟨hop, k, hk, hk'⟩ := hwp.of_ok hrun
    rw [hsame hop] at hk'
    exact hk hk'
  · intro hclear
    have hwp := wp_foldlM_addPacket 0 h hclear
    have hrun : ∃ total s', computePacketLatency c s = .ok total s' := by
      cases hresult : computePacketLatency c s with
      | ok total s' => exact ⟨total, s', rfl⟩
      | error e s' => exact (hwp.of_error hresult).elim
    obtain ⟨total, s', hrun⟩ := hrun
    exact ⟨total, s', hrun, (hwp.of_ok hrun).ids⟩

/-- Hops that are not local end with the local port when a local hop is put after them. -/
theorem endsLocal_append {path : Route} {last : Hop} (hpath : ∀ hop ∈ path, hop.port ≠ .toLocal)
    (hlast : last.port = .toLocal) : EndsLocal (path ++ [last]) := by
  induction path with
  | nil => exact hlast
  | cons hop path ih =>
    have hrest := ih fun hop hhop => hpath hop (List.mem_cons_of_mem _ hhop)
    cases path with
    | nil => exact ⟨hpath hop List.mem_cons_self, hrest⟩
    | cons next path => exact ⟨hpath hop List.mem_cons_self, hrest⟩

/-- A route ends with the local port. -/
theorem endsLocal_routeHops (src dst : MeshPos) : EndsLocal (routeHops src dst) := by
  obtain ⟨row, column, hpath, hrow, hcolumn⟩ := (isXYRoute_routeHops src dst).rowFirst
  rw [hpath]
  apply endsLocal_append _ rfl
  intro hop hhop hlocal
  rcases List.mem_append.1 hhop with hmem | hmem
  · rcases hrow hop hmem with h | h <;> rw [h] at hlocal <;> cases hlocal
  · rcases hcolumn hop hmem with h | h <;> rw [h] at hlocal <;> cases hlocal

section Traffic

variable {c : NocConfig} {s : NocState}

/-- More packets in the output buffers leave the packets recorded. -/
theorem Recorded.of_grows {s' : NocState} (h : Recorded c s) (hgrows : Grows s s') : Recorded c s' := by
  intro packet hpacket
  rw [hgrows.packets] at hpacket
  have hroute := h packet hpacket
  exact ⟨hroute.ends, fun hop hhop => hgrows.ids hop _ (hroute.present hop hhop), hroute.inRange⟩

/-- Counting accesses leaves the packets alone. -/
theorem CountsAccesses.sameIds {s' : NocState} (h : CountsAccesses s s') : SameIds s s' := by
  obtain ⟨reads, writes, rfl⟩ := h
  exact ⟨rfl, fun _ => rfl⟩

/-- Traffic keeps the packets recorded. -/
theorem trafficKeeps_recorded (c : NocConfig) : TrafficKeeps c (Recorded c) where
  counts _ _ hcounts h := h.of_grows hcounts.sameIds.grows
  opens _ _ _ h := h.of_grows ⟨rfl, fun _ _ hk => hk⟩
  closes s s' hclosed _ := by
    -- no packet is left
    obtain ⟨_, _, _, rfl⟩ := hclosed
    exact nofun
  sends src dst nbFlits s s' hsent h := by
    intro packet hpacket
    rw [hsent.packets] at hpacket
    rcases List.mem_append.1 hpacket with hold | hnew
    · have hroute := h packet hold
      exact ⟨hroute.ends, fun hop hhop => (hsent.mem_ids hop _).2 (.inl (hroute.present hop hhop)), hroute.inRange⟩
    · obtain ⟨count, hcount, rfl⟩ := List.mem_map.1 hnew
      refine ⟨endsLocal_routeHops src dst, fun hop hhop => ?_, hsent.inRange⟩
      exact (hsent.mem_ids hop _).2 (.inr ⟨hhop, count, List.mem_range.1 hcount, rfl⟩)

end Traffic

/-- After any history of calls the packets are recorded. -/
theorem recorded_forM {c : NocConfig} {transfers : List Transfer} {s : NocState}
    (h : transfers.forM (transfer c) .init = .ok ⟨⟩ s) : Recorded c s :=
  (trafficKeeps_recorded c).forM h nofun

/-- After any history of calls, `ComputePacketLatency` stays inside its containers and leaves the
packets of the output buffers exactly when the routes of the interval are clear. -/
theorem staysInside_forM_iff {c : NocConfig} {transfers : List Transfer} {s : NocState}
    (h : transfers.forM (transfer c) .init = .ok ⟨⟩ s) : StaysInside c s ↔ ClearInterval c s :=
  (recorded_forM h).staysInside_iff

/-- The packets of the interval are numbered in the order of their arrival, and the output buffers
hold no others. -/
structure Numbered (s : NocState) : Prop where
  length_eq : s.packetBuffer.length = s.totalFlits
  id_eq : ∀ k packet, s.packetBuffer[k]? = some packet → packet.id = (k + 1) % idxSize
  source : ∀ hop, ∀ k ∈ ids s hop, ∃ packet ∈ s.packetBuffer, packet.id = k ∧ hop ∈ packet.path

section Numbers

variable {c : NocConfig} {s : NocState}

/-- Sending flits numbers them on. -/
theorem Numbered.of_sendsFlits {s' : NocState} {src dst : MeshPos} {nbFlits : ℕ} (h : Numbered s)
    (hsent : SendsFlits c src dst nbFlits s s') : Numbered s' := by
  constructor
  · rw [hsent.packets, hsent.totalFlits, List.length_append, List.length_map, List.length_range, h.length_eq]
  · intro k packet hpacket
    rw [hsent.packets] at hpacket
    by_cases hk : k < s.packetBuffer.length
    · rw [List.getElem?_append_left hk] at hpacket
      exact h.id_eq k packet hpacket
    · rw [List.getElem?_append_right (Nat.le_of_not_lt hk), List.getElem?_map] at hpacket
      obtain ⟨count, hcount, rfl⟩ := Option.map_eq_some_iff.1 hpacket
      obtain ⟨hlt, hcount⟩ := List.getElem?_eq_some_iff.1 hcount
      rw [List.getElem_range] at hcount
      change ((s.totalFlits + 1) % idxSize + count) % idxSize = (k + 1) % idxSize
      rw [Nat.mod_add_mod, ← hcount, ← h.length_eq]
      congr 1
      omega
  · intro hop k hk
    rw [hsent.packets]
    rcases (hsent.mem_ids hop k).1 hk with hold | ⟨hhop, count, hcount, heq⟩
    · obtain ⟨packet, hpacket, hid⟩ := h.source hop k hold
      exact ⟨packet, List.mem_append_left _ hpacket, hid⟩
    · refine ⟨⟨_, routeHops src dst⟩, List.mem_append_right _ ?_, heq.symm, hhop⟩
      exact List.mem_map.2 ⟨count, List.mem_range.2 hcount, rfl⟩

/-- Traffic keeps the numbers. -/
theorem trafficKeeps_numbered (c : NocConfig) : TrafficKeeps c Numbered where
  counts s s' hcounts h := by
    obtain ⟨reads, writes, rfl⟩ := hcounts
    exact ⟨h.length_eq, h.id_eq, h.source⟩
  opens _ _ _ h := ⟨h.length_eq, h.id_eq, h.source⟩
  closes s s' hclosed _ := by
    obtain ⟨_, _, _, rfl⟩ := hclosed
    exact ⟨rfl, nofun, nofun⟩
  sends _ _ _ _ _ hsent h := h.of_sendsFlits hsent

/-- After any history of calls the packets are numbered. -/
theorem numbered_forM {transfers : List Transfer} (h : transfers.forM (transfer c) .init = .ok ⟨⟩ s) :
    Numbered s :=
  (trafficKeeps_numbered c).forM h ⟨rfl, nofun, nofun⟩

end Numbers

/-- Two flits leave the middle of the row, one passes behind them, and one ends in the middle. -/
def crowdedRow : List Transfer := [message ⟨1, 0⟩ 2 2, message ⟨0, 0⟩ 1 2, message ⟨0, 0⟩ 1 1]

/-- With output buffers of one flit the crowded row stays inside. -/
theorem staysInside_crowdedRow :
    StaysInside (rowMesh 1) (endState (crowdedRow.forM (transfer (rowMesh 1)) .init)) :=
  (staysInside_forM_iff (eq_ok_endState (by decide +kernel))).2 (by decide +kernel)

/-- With output buffers of two flits the last packet is blocked by the one in front of it, which is the
first one of its buffer: the iterator moves before the beginning. -/
theorem not_staysInside_crowdedRow :
    ∃ s, crowdedRow.forM (transfer (rowMesh 2)) .init = .ok ⟨⟩ s ∧ ¬ StaysInside (rowMesh 2) s ∧
      ∃ t, computePacketLatency (rowMesh 2) s = .error .beforeBegin t := by
  have hstop : stopsWith (fun e _ => e == .beforeBegin) (computePacketLatency (rowMesh 2)
      (endState (crowdedRow.forM (transfer (rowMesh 2)) .init))) = true := by decide +kernel
  obtain ⟨e, t, hrun, heq⟩ := exists_error_of_stopsWith hstop
  refine ⟨_, eq_ok_endState (by decide +kernel), fun ⟨total, s', hok, _⟩ => ?_, t, ?_⟩
  · rw [hrun] at hok
    cases hok
  · rw [hrun, beq_iff_eq.1 heq]

end Vpsim.Connect
