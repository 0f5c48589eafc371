import Vpsim.Connect.Transport

/-!
# Flits of a transaction

The number of flits that a transaction of a cache injects is its length divided by the size of a flit,
rounded down, when it transports data. A device write injects its flits one at a time, and rounds up.
-/

namespace Vpsim.Connect

open Vpsim.Lib

/-- Counting the flits injected so far leaves the entry into an interval alone. -/
theorem entryKeeps_flitsInjected (n : ℕ) : EntryKeeps fun s => s.flitsInjected = n where
  counts s s' hcounts h := by
    obtain ⟨_, _, rfl⟩ := hcounts
    exact h
  opens _ _ _ h := h
  closes s s' hclosed h := by
    obtain ⟨_, _, _, rfl⟩ := hclosed
    exact h

section Flits

variable {c : NocConfig}

/-- A transaction whose targets are not given by their ids has one destination. -/
theorem endpoints_length (trans : Payload) (isHome : Bool) (srcPos : MeshPos) (dstIds : List ℕ) (device : Bool)
    (s : NocState) : wp (endpoints c trans isHome false srcPos dstIds device)
      (fun ends _ => ends.2.length = 1) (fun _ _ => True) s := by
  by_cases hread : device ∧ trans.command = .read
  · apply wp.ite_pos hread
    apply (wp_trivial _ s).bind
    exact fun _ _ _ => rfl
  · apply wp.ite_neg hread
    apply wp.bind (R := fun dest _ => dest.length = 1)
    · apply wp.ite_neg Bool.false_ne_true
      by_cases hhome : isHome
      · apply wp.ite_pos hhome
        exact (wp_trivial _ s).bind fun _ _ _ => rfl
      · apply wp.ite_neg hhome
        apply (wp_trivial _ s).bind
        intro found s₁ _
        exact (wp_trivial _ s₁).bind fun _ _ _ => rfl
    · exact fun _ _ h => h

/-- A transaction whose targets are not given by their ids injects its flits once. -/
theorem networkTimingModel_flits (trans : Payload) (timeStamp : ℕ) (isHome : Bool) (nbFlits : ℕ)
    (srcPos : MeshPos) (dstIds : List ℕ) (device : Bool) (s : NocState) :
    wp (networkTimingModel c trans timeStamp isHome false nbFlits srcPos dstIds device)
      (fun _ s' => s'.flitsInjected = s.flitsInjected + nbFlits) (fun _ _ => True) s := by
  have hkeeps := entryKeeps_flitsInjected s.flitsInjected
  apply ((endpoints_length trans isHome srcPos dstIds device s).and
    (hkeeps.endpoints trans isHome false srcPos dstIds device rfl)).bind
  intro ends s₁ ⟨hlength, h₁⟩
  apply (hkeeps.enterInterval (c.toNanoseconds timeStamp) h₁).bind
  intro _ s₂ h₂
  obtain ⟨dst, hdst⟩ := List.length_eq_one_iff.1 hlength
  rw [hdst]
  apply (sendFlits_spec ends.1 dst nbFlits).bind
  intro _ s₃ hsent
  change s₃.flitsInjected = _
  rw [hsent.flitsInjected, h₂]

/-- A flit that a device writes is injected once. -/
theorem writeFlit_flits (memory : List MemoryAccess → ℕ → ℕ) (timeStamp : ℕ) (srcPos : MeshPos) (b : Burst)
    (s : NocState) : wp (writeFlit c memory timeStamp srcPos b)
      (fun _ s' => s'.flitsInjected = s.flitsInjected + 1) (fun _ _ => True) s := by
  apply (networkTimingModel_flits b.trans _ false 1 srcPos [] false s).bind
  intro _ s₁ h₁
  apply wp.step
  rw [wp_get]
  apply (sendTransactionToMMapped_spec b.trans b.sent _ s₁).bind
  intro r s₂ ⟨hs₂, _⟩
  change s₂.flitsInjected = _
  rw [hs₂, h₁]

/-- A device write injects a flit for each piece. -/
theorem deviceWrite_flits (hmesh : c.isMesh = true) (memory : List MemoryAccess → ℕ → ℕ) (timeStamp : ℕ)
    (srcPos : MeshPos) (b : Burst) (s : NocState) : wp (deviceWrite c memory timeStamp srcPos b)
      (fun _ s' => s'.flitsInjected = s.flitsInjected + roundedUp b.trans.dataLength c.flitSize)
      (fun _ _ => True) s := by
  apply wp.ite_pos hmesh
  have hflits := wp_repeatM (E := fun _ _ => True) (writeFlit c memory timeStamp srcPos)
    (fun k _ s' => s'.flitsInjected = s.flitsInjected + k)
    (fun k b' t ht => (writeFlit_flits memory timeStamp srcPos b' t).mono fun _ t' ht' => by
      rw [ht', ht, Nat.add_assoc])
    (roundedUp b.trans.dataLength c.flitSize) (k := 0) (s := s)
    (b := { b with trans := { b.trans with dataLength := c.flitSize }, arrivalDelay := b.delay }) rfl
  apply hflits.bind
  intro _ s' hs'
  rw [Nat.zero_add] at hs'
  exact hs'

/-- A device write on the mesh injects its length in flits, rounded up. -/
theorem bTransportDevice_flits (hmesh : c.isMesh = true) (memory : List MemoryAccess → ℕ → ℕ)
    (d : DeviceTransaction) (delay : ℕ) (s : NocState) (hwrite : d.trans.command ≠ .read) :
    wp (bTransportDevice c memory d delay)
      (fun _ s' => s'.flitsInjected = s.flitsInjected + roundedUp d.trans.dataLength c.flitSize)
      (fun _ _ => True) s := by
  apply (ofExcept_spec _ s).bind
  intro srcPos s₁ hs₁
  rw [hs₁]
  apply wp.bind
  · exact wp.ite_neg hwrite (deviceWrite_flits hmesh memory d.timeStamp srcPos _ s)
  · exact fun _ _ h => h

/-- A transaction that transports data goes to a memory-mapped component. -/
theorem isIdMapped_of_transportsData {t : CacheTransaction} (h : transportsData t = true) : isIdMapped c t = false := by
  apply decide_eq_false
  intro ⟨hignore, htargets⟩
  rcases of_decide_eq_true h with hwrite | hput
  · rw [hwrite] at hignore
    cases hignore
  · split at htargets
    · rcases hput with h | h <;> rw [h] at htargets <;> simp at htargets
    · rcases hput with h | h <;> rw [h] at htargets <;> simp at htargets

/-- A transaction that transports data injects its flits in the model with contention only. -/
theorem computeDelay_flits (hmesh : c.isMesh = true) {t : CacheTransaction} (hdata : transportsData t = true)
    (delay : ℕ) (s : NocState) : wp (computeDelay c t delay)
      (fun _ s' => s'.flitsInjected =
        s.flitsInjected + if c.withContention then t.trans.dataLength / c.flitSize else 0)
      (fun _ _ => True) s := by
  apply wp.ite_pos hmesh
  by_cases hcontention : c.withContention = true
  · apply wp.ite_pos hcontention
    rw [if_pos hcontention, isIdMapped_of_transportsData hdata]
    apply (ofExcept_spec _ s).bind
    intro srcPos s₁ hs₁
    rw [hs₁]
    have hflits : nbFlits c t = t.trans.dataLength / c.flitSize := if_pos hdata
    rw [hflits]
    exact (networkTimingModel_flits t.trans _ t.ext.toHome _ srcPos t.ext.targetIds false s).bind fun _ _ h => h
  · apply wp.ite_neg hcontention
    rw [if_neg hcontention]
    apply (ofExcept_spec _ s).bind
    intro dist s₁ hs₁
    rw [hs₁]
    exact rfl

end Flits

/-- The number of flits that hold the bytes of a transaction. -/
def flitsOf (c : NocConfig) (dataLength : ℕ) : ℕ := (dataLength + (c.flitSize - 1)) / c.flitSize

/-- Rounding up is a division. -/
theorem roundedUp_eq {length size : ℕ} (hsize : 0 < size) : roundedUp length size = (length + (size - 1)) / size := by
  have hdiv : (length + (size - 1)) / size = length / size + (length % size + (size - 1)) / size := by
    rw [← Nat.mul_add_div hsize, ← Nat.add_assoc, Nat.div_add_mod]
  have hmod := Nat.mod_lt length hsize
  unfold roundedUp
  rw [hdiv]
  by_cases hzero : length % size = 0
  · rw [if_neg (not_not_intro hzero), hzero, Nat.zero_add, Nat.div_eq_of_lt (Nat.sub_one_lt_of_lt hsize), Nat.add_zero]
  · rw [if_pos hzero]
    congr 1
    exact (Nat.div_eq_of_lt_le (by omega) (by omega)).symm

/-- A transaction of a cache injected as many flits as its bytes need, which are not zero, and which are those
that a device write of the same length injects. -/
structure FlitsAgree (c : NocConfig) (t : CacheTransaction) (s s' : NocState) : Prop where
  cache : s'.flitsInjected = s.flitsInjected + flitsOf c t.trans.dataLength
  pos : 0 < flitsOf c t.trans.dataLength
  device : ∀ memory d delay u b u', d.trans.command = .write → d.trans.dataLength = t.trans.dataLength →
    bTransportDevice c memory d delay u = .ok b u' →
      u'.flitsInjected = u.flitsInjected + flitsOf c t.trans.dataLength

/-- A transaction that transports data injects the flits of its bytes exactly when the model with contention is
used and the size of a flit divides its length. -/
theorem flitsAgree_iff {c : NocConfig} {t : CacheTransaction} {delay delay' : ℕ} {s s' : NocState}
    (hmesh : c.isMesh = true) (hflit : 0 < c.flitSize) (hdata : transportsData t = true)
    (hlength : 0 < t.trans.dataLength) (hrun : computeDelay c t delay s = .ok delay' s') :
    FlitsAgree c t s s' ↔ c.withContention = true ∧ c.flitSize ∣ t.trans.dataLength := by
  have hcache := (computeDelay_flits hmesh hdata delay s).of_ok hrun
  have hflits : roundedUp t.trans.dataLength c.flitSize = flitsOf c t.trans.dataLength := roundedUp_eq hflit
  have hpos : 0 < flitsOf c t.trans.dataLength := Nat.div_pos (by omega) hflit
  constructor
  · intro h
    have heq := Nat.add_left_cancel (hcache.symm.trans h.cache)
    by_cases hcontention : c.withContention = true
    · rw [if_pos hcontention, ← hflits] at heq
      refine ⟨hcontention, Nat.dvd_of_mod_eq_zero (Classical.byContradiction fun hmod => ?_)⟩
      unfold roundedUp at heq
      rw [if_pos hmod] at heq
      exact absurd heq (Nat.ne_of_lt (Nat.lt_succ_self _))
    · rw [if_neg hcontention] at heq
      exact absurd heq (Nat.ne_of_lt hpos)
  · intro ⟨hcontention, hdvd⟩
    refine ⟨?_, hpos, fun memory d delay u b u' hwrite hlen hdevice => ?_⟩
    · rw [hcache, if_pos hcontention, ← hflits]
      unfold roundedUp
      rw [if_neg (not_not_intro (Nat.mod_eq_zero_of_dvd hdvd))]
    · have hread : d.trans.command ≠ .read := by
        rw [hwrite]
        exact nofun
      rw [(bTransportDevice_flits hmesh memory d delay u hread).of_ok hdevice, hlen, hflits]

/-- A transaction of the cache. -/
def cacheWrite (dataLength : ℕ) : CacheTransaction :=
  ⟨⟨.write, 0, dataLength⟩, ⟨.write, 0, [], false⟩, 1⟩

/-- A write of two flits of data meets the condition and is counted in agreement. -/
theorem flitsAgree_twoFlits :
    ∃ delay s', computeDelay memoryMesh (cacheWrite 32) 0 .init = .ok delay s' ∧
      FlitsAgree memoryMesh (cacheWrite 32) .init s' := by
  obtain ⟨delay, hrun⟩ := exists_ok_endState (r := computeDelay memoryMesh (cacheWrite 32) 0 .init)
    (by decide +kernel)
  exact ⟨delay, _, hrun, (flitsAgree_iff rfl (by decide) rfl (by decide) hrun).2 (by decide)⟩

/-- A write of less than a flit is sent without any flits. -/
theorem not_flitsAgree_small :
    ∃ delay s', computeDelay memoryMesh (cacheWrite 8) 0 .init = .ok delay s' ∧
      s'.flitsInjected = 0 ∧ ¬ FlitsAgree memoryMesh (cacheWrite 8) .init s' := by
  obtain ⟨delay, hrun⟩ := exists_ok_endState (r := computeDelay memoryMesh (cacheWrite 8) 0 .init)
    (by decide +kernel)
  have hnone := (computeDelay_flits rfl rfl 0 .init).of_ok hrun
  exact ⟨delay, _, hrun, hnone, fun h => absurd (h.cache.symm.trans hnone) (by decide)⟩

end Vpsim.Connect
