import Vpsim.Connect.Transport

/-!
# The bytes of a device burst

The pieces of a burst follow each other from the address of the transaction on. They are all of the
same size, also the last one, so they cover the range of the transaction exactly when its length is a
multiple of that size.
-/

namespace Vpsim.Connect

open Vpsim.Lib

/-- The bytes that a burst accessed so far are the first `len` ones from `addr` on, and the next piece
follows them. -/
structure Covers (command : TlmCommand) (addr len : ℕ) (b : Burst) : Prop where
  command_eq : b.trans.command = command
  address_eq : b.trans.address = b.addr
  addr_eq : b.addr % countSize = (addr + len) % countSize
  bytes_eq : b.sent.flatMap MemoryAccess.bytes = span countSize addr len

section Pieces

variable {c : NocConfig} {memory : List MemoryAccess → ℕ → ℕ} {command : TlmCommand} {addr len : ℕ} {b : Burst}

/-- A piece of the given length continues the burst. -/
theorem Covers.advance (h : Covers command addr len b) (b' : Burst) {access : MemoryAccess}
    (hcommand : b'.trans.command = b.trans.command) (haddr : b'.addr = b.addr)
    (hsent : b'.sent = b.sent ++ [access]) (haccess : access.trans.address = b.trans.address) :
    Covers command addr (len + access.trans.dataLength) (b'.advance access.trans.dataLength) := by
  constructor
  · exact hcommand.trans h.command_eq
  · rfl
  · change (b'.addr + access.trans.dataLength) % countSize % countSize = _
    rw [Nat.mod_mod, haddr, ← Nat.mod_add_mod, h.addr_eq, Nat.mod_add_mod, Nat.add_assoc]
  · change b'.sent.flatMap MemoryAccess.bytes = _
    rw [hsent, List.flatMap_append, h.bytes_eq, span_add]
    congr 1
    change span countSize access.trans.address access.trans.dataLength ++ [] = _
    rw [List.append_nil, haccess, ← span_mod, h.address_eq, h.addr_eq, span_mod]

/-- A flit of a word that is read changes nothing but the delay. -/
theorem readFlit_spec (timeStamp : ℕ) (srcPos : MeshPos) (b : Burst) (s : NocState) :
    wp (readFlit c timeStamp srcPos b) (fun b' _ => ∃ maxDelay, b' = { b with maxDelay := maxDelay })
      (fun _ _ => True) s := by
  apply wp.bind (R := fun _ _ => True)
  · exact wp_trivial _ s
  · exact fun _ _ _ => ⟨_, rfl⟩

/-- A word that is read continues the burst. -/
theorem readWord_spec (timeStamp : ℕ) (srcPos : MeshPos) (h : Covers command addr len b) (s : NocState) :
    wp (readWord c memory timeStamp srcPos b)
      (fun b' _ => Covers command addr (len + c.mWordLengthInByte) b') (fun _ _ => True) s := by
  apply (sendTransactionToMMapped_spec _ b.sent b.memDelay s).bind
  intro r s₁ ⟨hs₁, port, hsent⟩
  -- the flits of the word leave the address and the accesses alone
  have hflits := wp_repeatM (E := fun _ _ => True) (readFlit c timeStamp srcPos)
    (fun _ b' _ => b'.trans.command = b.trans.command ∧ b'.addr = b.addr ∧ b'.sent = r.1)
    (fun k b₁ t hb₁ => (readFlit_spec timeStamp srcPos b₁ t).mono fun b₂ _ ⟨maxDelay, hb₂⟩ => by
      rw [hb₂]
      exact hb₁)
    (roundedUp c.mWordLengthInByte c.flitSize) (k := 0) (s := s₁)
    (b := { b with
      trans := { b.trans with dataLength := c.flitSize }
      arrivalDelay := r.2
      memDelay := r.2
      sent := r.1 }) ⟨rfl, rfl, rfl⟩
  apply hflits.bind
  intro b' _ ⟨hcommand, haddr, hb'⟩
  exact h.advance b' hcommand haddr (hb'.trans hsent) rfl

/-- A flit that is written continues the burst. -/
theorem writeFlit_spec (timeStamp : ℕ) (srcPos : MeshPos) (h : Covers command addr len b)
    (hlength : b.trans.dataLength = c.flitSize) (s : NocState) :
    wp (writeFlit c memory timeStamp srcPos b)
      (fun b' _ => Covers command addr (len + c.flitSize) b' ∧ b'.trans.dataLength = c.flitSize)
      (fun _ _ => True) s := by
  apply wp.bind (R := fun _ _ => True)
  · exact wp_trivial _ s
  · intro _ s₁ _
    apply wp.step
    rw [wp_get]
    apply (sendTransactionToMMapped_spec b.trans b.sent _ s₁).bind
    intro r s₂ ⟨_, port, hsent⟩
    have hnext := h.advance { b with memDelay := r.2, maxDelay := max b.maxDelay r.2, sent := r.1 } rfl rfl hsent rfl
    rw [hlength] at hnext
    exact ⟨hnext, hlength⟩

/-- The reads of a burst cover a range of whole words. -/
theorem deviceRead_spec (hmesh : c.isMesh = true) (timeStamp : ℕ) (srcPos : MeshPos)
    (h : Covers command addr 0 b) (s : NocState) :
    wp (deviceRead c memory timeStamp srcPos b)
      (fun b' _ => Covers command addr (roundedUp b.trans.dataLength c.mWordLengthInByte * c.mWordLengthInByte) b')
      (fun _ _ => True) s := by
  apply wp.ite_pos hmesh
  have hwords := wp_repeatM (E := fun _ _ => True) (readWord c memory timeStamp srcPos)
    (fun k b' _ => Covers command addr (k * c.mWordLengthInByte) b')
    (fun k b' t hb' => by
      rw [Nat.succ_mul]
      exact readWord_spec timeStamp srcPos hb' t)
    (roundedUp b.trans.dataLength c.mWordLengthInByte) (k := 0) (s := s) (b := { b with memDelay := b.delay }) (by
      rw [Nat.zero_mul]
      exact ⟨h.command_eq, h.address_eq, h.addr_eq, h.bytes_eq⟩)
  apply hwords.bind
  intro b' _ hb'
  rw [Nat.zero_add] at hb'
  exact ⟨hb'.command_eq, hb'.address_eq, hb'.addr_eq, hb'.bytes_eq⟩

/-- The writes of a burst cover a range of whole flits. -/
theorem deviceWrite_spec (hmesh : c.isMesh = true) (timeStamp : ℕ) (srcPos : MeshPos)
    (h : Covers command addr 0 b) (s : NocState) :
    wp (deviceWrite c memory timeStamp srcPos b)
      (fun b' _ => Covers command addr (roundedUp b.trans.dataLength c.flitSize * c.flitSize) b')
      (fun _ _ => True) s := by
  apply wp.ite_pos hmesh
  have hflits := wp_repeatM (E := fun _ _ => True) (writeFlit c memory timeStamp srcPos)
    (fun k b' _ => Covers command addr (k * c.flitSize) b' ∧ b'.trans.dataLength = c.flitSize)
    (fun k b' t hb' => by
      rw [Nat.succ_mul]
      exact writeFlit_spec timeStamp srcPos hb'.1 hb'.2 t)
    (roundedUp b.trans.dataLength c.flitSize) (k := 0) (s := s)
    (b := { b with trans := { b.trans with dataLength := c.flitSize }, arrivalDelay := b.delay }) (by
      rw [Nat.zero_mul]
      exact ⟨⟨h.command_eq, h.address_eq, h.addr_eq, h.bytes_eq⟩, rfl⟩)
  apply hflits.bind
  intro b' _ ⟨hb', _⟩
  rw [Nat.zero_add] at hb'
  exact ⟨hb'.command_eq, hb'.address_eq, hb'.addr_eq, hb'.bytes_eq⟩

end Pieces

/-- The length of the accesses that a device transaction is split into. -/
def pieceSize (c : NocConfig) (command : TlmCommand) : ℕ :=
  if command = .read then c.mWordLengthInByte else c.flitSize

/-- The accesses of a burst are to the bytes of the transaction, each once and in order, and the
transaction is as it was. -/
structure CoversExactly (d : DeviceTransaction) (b : Burst) : Prop where
  bytes_eq : b.sent.flatMap MemoryAccess.bytes = span countSize d.trans.address d.trans.dataLength
  trans_eq : b.trans = d.trans

/-- The pieces of a burst cover a range of whole pieces. -/
theorem deviceBurst_spec {c : NocConfig} {memory : List MemoryAccess → ℕ → ℕ} {addr : ℕ} {b : Burst}
    (hmesh : c.isMesh = true) (timeStamp : ℕ) (srcPos : MeshPos) (h : Covers b.trans.command addr 0 b) (s : NocState) :
    wp (deviceBurst c memory timeStamp srcPos b)
      (fun b' _ => Covers b.trans.command addr
        (roundedUp b.trans.dataLength (pieceSize c b.trans.command) * pieceSize c b.trans.command) b')
      (fun _ _ => True) s := by
  unfold pieceSize
  by_cases hread : b.trans.command = .read
  · rw [if_pos hread]
    exact wp.ite_pos hread (deviceRead_spec hmesh timeStamp srcPos h s)
  · rw [if_neg hread]
    exact wp.ite_neg hread (deviceWrite_spec hmesh timeStamp srcPos h s)

/-- A burst accesses whole pieces, and restores the transaction. -/
theorem bTransportDevice_spec {c : NocConfig} (hmesh : c.isMesh = true) (memory : List MemoryAccess → ℕ → ℕ)
    (d : DeviceTransaction) (delay : ℕ) (s : NocState) :
    wp (bTransportDevice c memory d delay)
      (fun b _ => b.trans = d.trans ∧ b.sent.flatMap MemoryAccess.bytes = span countSize d.trans.address
        (roundedUp d.trans.dataLength (pieceSize c d.trans.command) * pieceSize c d.trans.command))
      (fun _ _ => True) s := by
  apply wp.bind (R := fun _ _ => True) (wp_trivial _ s)
  intro srcPos s₁ _
  have hstart : Covers d.trans.command d.trans.address 0 ⟨d.trans, delay, d.trans.address, 0, 0, 0, []⟩ :=
    ⟨rfl, rfl, rfl, rfl⟩
  apply (deviceBurst_spec hmesh d.timeStamp srcPos hstart s₁).bind
  intro b _ hb
  refine ⟨?_, hb.bytes_eq⟩
  change Payload.mk b.trans.command _ _ = _
  rw [hb.command_eq]

/-- Whole pieces make up a length exactly when their size divides it. -/
theorem roundedUp_mul_eq_iff {length size : ℕ} : roundedUp length size * size = length ↔ size ∣ length := by
  unfold roundedUp
  have hdiv := Nat.div_add_mod length size
  rw [Nat.mul_comm] at hdiv
  by_cases hmod : length % size = 0
  · rw [if_neg (not_not_intro hmod)]
    rw [hmod, Nat.add_zero] at hdiv
    exact iff_of_true hdiv (Nat.dvd_of_mod_eq_zero hmod)
  · rw [if_pos hmod]
    apply iff_of_false _ fun hdvd => hmod (Nat.mod_eq_zero_of_dvd hdvd)
    intro heq
    by_cases hsize : size = 0
    · rw [hsize, Nat.mul_zero] at heq
      rw [← heq, Nat.zero_mod] at hmod
      exact hmod rfl
    · have hlt := Nat.mod_lt length (Nat.pos_of_ne_zero hsize)
      rw [Nat.succ_mul] at heq
      omega

/-- A device transaction on the mesh accesses exactly its bytes when the size of a piece divides its
length, and only then. -/
theorem coversExactly_iff {c : NocConfig} {memory : List MemoryAccess → ℕ → ℕ} {d : DeviceTransaction}
    {delay : ℕ} {s s' : NocState} {b : Burst} (hmesh : c.isMesh = true)
    (hrun : bTransportDevice c memory d delay s = .ok b s') :
    CoversExactly d b ↔ pieceSize c d.trans.command ∣ d.trans.dataLength := by
  have ⟨htrans, hbytes⟩ := (bTransportDevice_spec hmesh memory d delay s).of_ok hrun
  rw [← roundedUp_mul_eq_iff, ← span_inj countSize d.trans.address, ← hbytes]
  exact ⟨fun h => h.bytes_eq, fun h => ⟨h, htrans⟩⟩

/-- A read of two words accesses exactly these. -/
theorem coversExactly_twoWords :
    ∃ b s', bTransportDevice memoryMesh quickMemory (deviceAccess .read 64 128) 0 .init = .ok b s' ∧
      CoversExactly (deviceAccess .read 64 128) b := by
  obtain ⟨b, hrun⟩ := exists_ok_endState
    (r := bTransportDevice memoryMesh quickMemory (deviceAccess .read 64 128) 0 .init) (by decide +kernel)
  exact ⟨b, _, hrun, (coversExactly_iff rfl hrun).2 (by decide +kernel)⟩

/-- A write of one byte writes a whole flit. -/
theorem not_coversExactly_oneByte :
    ∃ b s', bTransportDevice memoryMesh quickMemory (deviceAccess .write 64 1) 0 .init = .ok b s' ∧
      b.sent.flatMap MemoryAccess.bytes = span countSize 64 16 ∧
      ¬ CoversExactly (deviceAccess .write 64 1) b := by
  obtain ⟨b, hrun⟩ := exists_ok_endState
    (r := bTransportDevice memoryMesh quickMemory (deviceAccess .write 64 1) 0 .init) (by decide +kernel)
  have hbytes := ((bTransportDevice_spec rfl quickMemory (deviceAccess .write 64 1) 0 .init).of_ok hrun).2
  refine ⟨b, _, hrun, hbytes, fun h => ?_⟩
  exact absurd ((span_inj countSize 64).1 (hbytes.symm.trans h.bytes_eq)) (by decide)

end Vpsim.Connect
