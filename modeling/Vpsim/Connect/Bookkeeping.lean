import Vpsim.Connect.BufferBounds
import Vpsim.Connect.NocStatistics
import Vpsim.Connect.FlitCounts

/-!
# The books of the contention model

Between two calls the packet buffer lists the flits of the current interval under the ids from 1
on, every output buffer holds the ids whose stored route names it, and together with the flits of
the closed intervals they make up all flits that the calls have injected. `ComputePacketLatency`
relies on the first two when it indexes the packet buffer and searches the output buffers.
-/

namespace Vpsim.Connect

open Vpsim.Lib

/-- The number of destinations of a call: one for each target id, and one for an address or for a
device that reads. -/
def Transfer.destinations (c : NocConfig) (t : Transfer) : ℕ :=
  if t.device = true ∧ t.trans.command = .read then 1
  else if t.isIdMapped then (idTargets c t.dstIds).length else 1

/-- The flits that a call injects. -/
def Transfer.flits (c : NocConfig) (t : Transfer) : ℕ := t.destinations c * t.nbFlits

/-- The flits that the calls of a history inject. -/
def flitsOfCalls (c : NocConfig) (transfers : List Transfer) : ℕ := (transfers.map (Transfer.flits c)).foldr (· + ·) 0

/-- What holds between two calls, after calls that have injected `injected` flits. -/
structure InOrder (s : NocState) (injected : ℕ) : Prop where
  length : s.packetBuffer.length = s.totalFlits
  /-- `packetBuffer[k-1]` has the id `k`, which is in the output buffers of its route and in no other. -/
  packet : ∀ k, 1 ≤ k → k ≤ s.totalFlits → ∃ packet : Packet, s.packetBuffer[k - 1]? = some packet ∧ packet.id = k ∧
    ∀ hop, k ∈ ids s hop ↔ hop ∈ packet.path
  /-- The output buffers hold no other ids. -/
  buffered : ∀ hop, ∀ k ∈ ids s hop, 1 ≤ k ∧ k ≤ s.totalFlits
  counted : s.packetsCount + s.packetBuffer.length = injected

/-! ## The flits of a call -/

/-- A list of results is as long as the list they come from. -/
theorem length_of_mapM_ok {ε α β : Type} {f : α → Except ε β} {l : List α} {l' : List β} (h : l.mapM f = .ok l') :
    l'.length = l.length := by
  induction l generalizing l' with
  | nil =>
    cases h
    rfl
  | cons a l ih =>
    rw [List.mapM_cons] at h
    cases ha : f a with
    | error e =>
      rw [ha] at h
      cases h
    | ok b =>
      rw [ha] at h
      cases hl : l.mapM f with
      | error e =>
        rw [hl] at h
        cases h
      | ok bs =>
        rw [hl] at h
        cases h
        rw [List.length_cons, List.length_cons, ih hl]

section Flits

variable {c : NocConfig} {s : NocState}

/-- A call looks up as many positions as it has destinations. -/
theorem endpoints_destinations (t : Transfer) (s : NocState) :
    wp (endpoints c t.trans t.isHome t.isIdMapped t.srcPos t.dstIds t.device)
      (fun ends _ => ends.2.length = t.destinations c) (fun _ _ => True) s := by
  unfold Transfer.destinations
  by_cases hread : t.device = true ∧ t.trans.command = .read
  · apply wp.ite_pos hread
    rw [if_pos hread]
    exact (wp_trivial _ s).bind fun _ _ _ => rfl
  · apply wp.ite_neg hread
    rw [if_neg hread]
    apply wp.bind (R := fun dest _ => dest.length = if t.isIdMapped then (idTargets c t.dstIds).length else 1)
    · by_cases hids : t.isIdMapped
      · apply wp.ite_pos hids
        rw [if_pos hids]
        cases hl : (idTargets c t.dstIds).mapM (getNocPosById c) with
        | error e => exact trivial
        | ok l => exact length_of_mapM_ok hl
      · apply wp.ite_neg hids
        rw [if_neg hids]
        by_cases hhome : t.isHome
        · apply wp.ite_pos hhome
          exact (wp_trivial _ s).bind fun _ _ _ => rfl
        · apply wp.ite_neg hhome
          apply (wp_trivial _ s).bind
          intro found s₁ _
          exact (wp_trivial _ s₁).bind fun _ _ _ => rfl
    · exact fun _ _ h => h

/-- A call injects its flits once for each destination. -/
theorem transfer_flits (t : Transfer) (s : NocState) :
    wp (transfer c t) (fun _ s' => s'.flitsInjected = s.flitsInjected + t.flits c) (fun _ _ => True) s := by
  have hkeeps := entryKeeps_flitsInjected s.flitsInjected
  apply ((endpoints_destinations t s).and
    (hkeeps.endpoints t.trans t.isHome t.isIdMapped t.srcPos t.dstIds t.device rfl)).bind
  intro ends s₁ ⟨hlength, h₁⟩
  apply (hkeeps.enterInterval (c.toNanoseconds t.timeStamp) h₁).bind
  intro _ s₂ h₂
  -- The destinations still to come are what is missing.
  refine wp_forM_of (fun rest s' => s'.flitsInjected + rest.length * t.nbFlits = s.flitsInjected + t.flits c)
    ?_ (fun dst rest s₃ h₃ => ?_) fun s₃ h₃ => ?_
  · rw [h₂, hlength, Transfer.flits]
  · apply (sendFlits_spec ends.1 dst t.nbFlits).mono
    intro _ s₄ hsent
    rw [hsent.flitsInjected, ← h₃, List.length_cons, Nat.succ_mul]
    omega
  · rwa [List.length_nil, Nat.zero_mul, Nat.add_zero] at h₃

/-- A history injects the flits of its calls. -/
theorem flitsInjected_forM {transfers : List Transfer} {s' : NocState}
    (h : transfers.forM (transfer c) s = .ok ⟨⟩ s') :
    s'.flitsInjected = s.flitsInjected + flitsOfCalls c transfers := by
  induction transfers generalizing s with
  | nil =>
    cases h
    rfl
  | cons t transfers ih =>
    obtain ⟨s₁, hfirst, hrest⟩ := forM_cons_ok h
    rw [ih hrest, (transfer_flits t s).of_ok hfirst, Nat.add_assoc]
    rfl

end Flits

/-! ## Every call leaves the books in order -/

/-- In an interval of fewer flits than an `idx_t` can count the packets have the ids from 1 on, and are
the only ones with their ids. -/
theorem Numbered.id_of_lt {s : NocState} (h : Numbered s) (hflits : s.totalFlits < idxSize) {k : ℕ} {packet : Packet}
    (hpacket : s.packetBuffer[k]? = some packet) : k < s.totalFlits ∧ packet.id = k + 1 := by
  have hk := (List.getElem?_eq_some_iff.1 hpacket).1
  rw [h.length_eq] at hk
  refine ⟨hk, ?_⟩
  rw [h.id_eq k packet hpacket, Nat.mod_eq_of_lt (by omega)]

/-- After every call of a history whose last interval has fewer flits than an `idx_t` can count, the packet
buffer, the output buffers and the number of packets agree. -/
theorem inOrder_forM {c : NocConfig} {transfers : List Transfer} {s : NocState}
    (h : transfers.forM (transfer c) .init = .ok ⟨⟩ s) (hflits : s.totalFlits < idxSize) :
    InOrder s (flitsOfCalls c transfers) := by
  have hnumbered := numbered_forM h
  have hrecorded := recorded_forM h
  have hsource {hop k} (hk : k ∈ ids s hop) : ∃ (place : ℕ) (packet : Packet),
      s.packetBuffer[place]? = some packet ∧ packet.id = k ∧ hop ∈ packet.path := by
    obtain ⟨packet, hpacket, hid, hhop⟩ := hnumbered.source hop k hk
    obtain ⟨place, hplace, hget⟩ := List.getElem_of_mem hpacket
    exact ⟨place, packet, List.getElem?_eq_some_iff.2 ⟨hplace, hget⟩, hid, hhop⟩
  refine ⟨hnumbered.length_eq, fun k hpos hk => ?_, fun hop k hk => ?_, ?_⟩
  · have hlt : k - 1 < s.packetBuffer.length := by
      rw [hnumbered.length_eq]
      omega
    have hget : s.packetBuffer[k - 1]? = some (s.packetBuffer.get ⟨k - 1, hlt⟩) :=
      List.getElem?_eq_getElem hlt
    have hid := (hnumbered.id_of_lt hflits hget).2
    rw [Nat.sub_add_cancel hpos] at hid
    refine ⟨_, hget, hid, fun hop => ⟨fun hmem => ?_, fun hhop => ?_⟩⟩
    · -- The packet that put the id there is this one.
      obtain ⟨place, packet, hplace, hpacket, hhop⟩ := hsource hmem
      have hsame := (hnumbered.id_of_lt hflits hplace).2
      obtain rfl : place = k - 1 := by omega
      rw [hget] at hplace
      cases hplace
      exact hhop
    · have hthere := (hrecorded _ (List.mem_of_getElem? hget)).present hop hhop
      rwa [hid] at hthere
  · obtain ⟨place, packet, hplace, hid, -⟩ := hsource hk
    obtain ⟨hlt, hnext⟩ := hnumbered.id_of_lt hflits hplace
    omega
  · have haccounted : Accounted s := (trafficKeeps_accounted c).forM h rfl
    have hinjected := flitsInjected_forM h
    unfold Accounted at haccounted
    rw [haccounted, hinjected]
    exact Nat.zero_add _

/-- Two flits to the end of the row, one behind them and one to the middle. -/
theorem inOrder_crowdedRow :
    InOrder (endState (crowdedRow.forM (transfer (rowMesh 2)) .init)) (flitsOfCalls (rowMesh 2) crowdedRow) :=
  inOrder_forM (eq_ok_endState (by decide +kernel)) (by decide +kernel)

end Vpsim.Connect
