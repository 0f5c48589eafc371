import Vpsim.Connect.NetworkTiming

/-!
# Reading the statistics of the contention model

The packets of an interval are counted when the interval is closed. `getTotalLatencyWithContention`
adds those of the current interval to the totals, and leaves them in the packet buffer, from which
they are counted again by the next call and by the end of the interval.
-/

namespace Vpsim.Connect

open Vpsim.Lib

/-- `getTotalLatencyWithContention`. -/
def getTotalLatencyWithContention (c : NocConfig) : NocM ℕ := do
  let latency ← computePacketLatency c
  modify fun s => { s with
    averageLatency := s.averageLatency + latency
    packetsCount := s.packetsCount + s.packetBuffer.length }
  return (← get).averageLatency

/-- The values of `n` calls, one after the other. -/
def readTotalLatency (c : NocConfig) : ℕ → NocM (List ℕ)
  | 0 => return []
  | n + 1 => do
    let latency ← getTotalLatencyWithContention c
    return latency :: (← readTotalLatency c n)

/-- The totals that the statistics report. -/
structure NocTotals where
  totalDistance : ℕ
  packetsCount : ℕ
  averageLatency : ℕ
  routerTotalLatency : ℕ → ℕ
  routerPacketsCount : ℕ → ℕ

/-- The totals of a state. -/
def totals (s : NocState) : NocTotals where
  totalDistance := s.totalDistance
  packetsCount := s.packetsCount
  averageLatency := s.averageLatency
  routerTotalLatency := s.routerTotalLatency
  routerPacketsCount := s.routerPacketsCount

/-- Calls in a state return one value however many they are. They leave the number of packets at the
number of flits sent so far, and the totals after further traffic as they would be without them. -/
def HarmlessReads (c : NocConfig) (s : NocState) : Prop :=
  ∃ value, ∀ n, 0 < n → ∃ s', readTotalLatency c n s = .ok (List.replicate n value) s' ∧
    s'.packetsCount = s.flitsInjected ∧
    ∀ (transfers : List Transfer) t, transfers.forM (transfer c) s = .ok ⟨⟩ t →
      ∃ t', transfers.forM (transfer c) s' = .ok ⟨⟩ t' ∧ totals t' = totals t

/-- Traffic, or a call of `getTotalLatencyWithContention`. -/
inductive NocCall
  | traffic (t : Transfer)
  | getTotalLatency

/-- One call. -/
def call (c : NocConfig) : NocCall → NocM PUnit
  | .traffic t => transfer c t
  | .getTotalLatency => do
    let _ ← getTotalLatencyWithContention c

/-- The reads of a run are harmless. -/
def ReadsHarmless (c : NocConfig) (s : NocState) (op : NocCall) : Prop :=
  op = .getTotalLatency → HarmlessReads c s

/-- No flit is in the packet buffer when the statistics are read. -/
def ReadsBetween (s : NocState) (op : NocCall) : Prop := op = .getTotalLatency → s.packetBuffer = []

/-- The packets counted and those of the current interval are the flits sent so far. -/
def Accounted (s : NocState) : Prop := s.packetsCount + s.packetBuffer.length = s.flitsInjected

section Reads

variable {c : NocConfig} {s s' : NocState}

/-- A call without packets changes nothing. -/
theorem getTotalLatency_eq (h : s.packetBuffer = []) : getTotalLatencyWithContention c s = .ok s.averageLatency s := by
  have hnone : computePacketLatency c s = .ok 0 s := by
    unfold computePacketLatency
    refine (bind_of_ok (show (get : NocM NocState) s = .ok s s from rfl)).trans ?_
    rw [h]
    rfl
  unfold getTotalLatencyWithContention
  rw [bind_of_ok hnone]
  cases s
  cases h
  rfl

/-- Several calls without packets return the same value. -/
theorem readTotalLatency_eq (h : s.packetBuffer = []) (n : ℕ) :
    readTotalLatency c n s = .ok (List.replicate n s.averageLatency) s := by
  induction n with
  | zero => rfl
  | succ n ih =>
    unfold readTotalLatency
    rw [bind_of_ok (getTotalLatency_eq h), bind_of_ok ih]
    rfl

/-- A call counts the packets of the current interval and keeps them. -/
theorem getTotalLatency_spec (s : NocState) : wp (getTotalLatencyWithContention c)
    (fun _ s' => s'.packetsCount = s.packetsCount + s.packetBuffer.length ∧ s'.packetBuffer = s.packetBuffer)
    (fun _ _ => True) s := by
  apply wp.step
  apply (changesWaits_computePacketLatency c s).imp
  · intro latency s₁ ⟨noc, latencies, last, hs₁⟩
    rw [hs₁]
    exact ⟨rfl, rfl⟩
  · exact fun _ _ _ => trivial

/-- Reads are harmless in a state whose packets are accounted for exactly when there are none in the
packet buffer. -/
theorem Accounted.harmlessReads_iff (h : Accounted s) : HarmlessReads c s ↔ s.packetBuffer = [] := by
  constructor
  · intro ⟨value, hreads⟩
    -- the second call counts the packets a second time
    obtain ⟨s', hrun, hcount, -⟩ := hreads 2 (by decide)
    have htwice : wp (readTotalLatency c 2) (fun _ s' => s'.packetsCount =
        s.packetsCount + s.packetBuffer.length + s.packetBuffer.length) (fun _ _ => True) s := by
      apply (getTotalLatency_spec s).bind
      intro _ s₁ ⟨hfirst, hbuffer⟩
      apply wp.bind (R := fun _ s₂ => s₂.packetsCount =
        s.packetsCount + s.packetBuffer.length + s.packetBuffer.length)
      · apply (getTotalLatency_spec s₁).bind
        intro _ s₂ ⟨hsecond, _⟩
        change s₂.packetsCount = _
        rw [hsecond, hfirst, hbuffer]
      · exact fun _ _ hs => hs
    have hsum := htwice.of_ok hrun
    unfold Accounted at h
    apply List.eq_nil_of_length_eq_zero
    omega
  · intro hnone
    refine ⟨s.averageLatency, fun n _ => ⟨s, readTotalLatency_eq hnone n, ?_, ?_⟩⟩
    · unfold Accounted at h
      rw [hnone] at h
      exact h
    · exact fun transfers t hrun => ⟨t, hrun, rfl⟩

/-- Traffic keeps the packets accounted for. -/
theorem trafficKeeps_accounted (c : NocConfig) : TrafficKeeps c Accounted where
  counts s s' hcounts h := by
    obtain ⟨reads, writes, rfl⟩ := hcounts
    exact h
  opens _ _ _ h := h
  closes s s' hclosed h := by
    obtain ⟨_, _, _, rfl⟩ := hclosed
    exact h
  sends src dst nbFlits s s' hsent h := by
    unfold Accounted at h ⊢
    rw [hsent.packetsCount, hsent.packets, hsent.flitsInjected, List.length_append, List.length_map,
      List.length_range, ← Nat.add_assoc, h]

/-- A call keeps the packets accounted for if it does not read while there are packets. -/
theorem Accounted.call {op : NocCall} (h : Accounted s) (hbetween : ReadsBetween s op)
    (hrun : call c op s = .ok ⟨⟩ s') : Accounted s' := by
  cases op with
  | traffic t => exact ((trafficKeeps_accounted c).transfer t h).of_ok hrun
  | getTotalLatency =>
    have hread : Connect.call c .getTotalLatency s = .ok ⟨⟩ s := by
      change (getTotalLatencyWithContention c >>= fun _ => (pure PUnit.unit : NocM PUnit)) s = _
      rw [bind_of_ok (getTotalLatency_eq (hbetween rfl))]
      rfl
    rw [hread] at hrun
    cases hrun
    exact h

end Reads

/-- The reads of a run are harmless exactly when none of them is made while there are packets in the
current interval. -/
theorem readsHarmless_iff (c : NocConfig) (calls : List NocCall) :
    Along (call c) (ReadsHarmless c) .init calls ↔ Along (call c) ReadsBetween .init calls := by
  have hpoint : ∀ s op, Accounted s → (ReadsHarmless c s op ↔ ReadsBetween s op) := fun s op h =>
    imp_congr_right fun _ => h.harmlessReads_iff
  have hinit : Accounted .init := rfl
  constructor
  · intro h
    exact h.imp Accounted (fun s op s' hs hop hrun => hs.call ((hpoint s op hs).1 hop) hrun)
      (fun s op hs => (hpoint s op hs).1) hinit
  · intro h
    exact h.imp Accounted (fun s op s' hs hop hrun => hs.call hop hrun) (fun s op hs => (hpoint s op hs).2) hinit

/-- One flit on the way when the statistics are read: two reads count it twice. -/
theorem not_readsHarmless_traffic :
    ¬ Along (call (rowMesh 1)) (ReadsHarmless (rowMesh 1)) .init
      [.traffic (message ⟨0, 0⟩ 1 1), .getTotalLatency] := by
  intro h
  have hrun : [NocCall.traffic (message ⟨0, 0⟩ 1 1)].forM (call (rowMesh 1)) .init = .ok ⟨⟩ _ :=
    eq_ok_endState (by decide +kernel)
  have hread := (Along.append (l := [NocCall.traffic (message ⟨0, 0⟩ 1 1)]) h hrun).1 rfl
  have haccounted : Accounted (endState ([NocCall.traffic (message ⟨0, 0⟩ 1 1)].forM (call (rowMesh 1)) .init)) := by
    unfold Accounted
    decide +kernel
  exact absurd (haccounted.harmlessReads_iff.1 hread) (by decide +kernel)

end Vpsim.Connect
