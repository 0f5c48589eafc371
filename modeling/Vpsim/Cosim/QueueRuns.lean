import Vpsim.Cosim.QueueSteps
import Mathlib.Data.Nat.Bitwise

/-!
# Runs of the queue between two threads

The queue is made with blocks whose size is a power of two and with room for the elements that it was asked for. From
there it is in order in every interleaving of both threads. Each call ends after a bounded number of steps of its own
thread, whatever the other does.
-/

namespace Vpsim.Cosim.ReaderWriterQueue

open Vpsim.Lib

section CeilToPow2

variable {n shift x y : ℕ}

/-- Each bit of `y` is set where one of the `n` bits of `x` from there on is. -/
def Smeared (n x y : ℕ) : Prop := ∀ i, y.testBit i = true ↔ ∃ k < n, x.testBit (i + k) = true

theorem Smeared.smear (h : Smeared n x y) (hshift : shift ≤ n) : Smeared (n + shift) x (smear y shift) := by
  intro i
  rw [ReaderWriterQueue.smear, Nat.testBit_or, Nat.testBit_shiftRight, Bool.or_eq_true, h, h]
  constructor
  · rintro (⟨k, hk, hx⟩ | ⟨k, hk, hx⟩)
    · exact ⟨k, by omega, hx⟩
    · exact ⟨shift + k, by omega, by rwa [← Nat.add_assoc, Nat.add_comm i]⟩
  · rintro ⟨k, hk, hx⟩
    by_cases hlt : k < n
    · exact .inl ⟨k, hlt, hx⟩
    · refine .inr ⟨k - shift, by omega, ?_⟩
      have hsum : shift + i + (k - shift) = i + k := by omega
      rwa [hsum]

/-- Smeared over all of its bits, a number is the next power of two but for one. -/
theorem Smeared.eq_two_pow (h : Smeared n x y) (hpos : x ≠ 0) (hx : x < 2 ^ n) : y = 2 ^ (x.log2 + 1) - 1 := by
  refine Nat.eq_of_testBit_eq fun i => ?_
  rw [Nat.testBit_two_pow_sub_one, Bool.eq_iff_iff, h i, decide_eq_true_eq]
  constructor
  · rintro ⟨k, -, hbit⟩
    by_contra hle
    have hlow : x < 2 ^ (i + k) := Nat.lt_log2_self.trans_le (Nat.pow_le_pow_right (by omega) (by omega))
    rw [Nat.testBit_lt_two_pow hlow] at hbit
    cases hbit
  · intro hi
    have hlog : x.log2 < n := (Nat.log2_lt hpos).2 hx
    refine ⟨x.log2 - i, by omega, ?_⟩
    rw [Nat.add_sub_cancel' (by omega)]
    exact Nat.testBit_log2 hpos

/-- `ceilToPow2` gives the least power of two that is not less. -/
theorem ceilToPow2_succ (hpos : x ≠ 0) (hx : x < 2 ^ 63) : ceilToPow2 (x + 1) = 2 ^ (x.log2 + 1) := by
  have hself : Smeared 1 x x := by
    intro i
    constructor
    · exact fun hbit => ⟨0, Nat.zero_lt_one, hbit⟩
    · rintro ⟨k, hk, hbit⟩
      obtain rfl : k = 0 := by omega
      exact hbit
  have hsmeared : Smeared 64 x _ := (((((hself.smear le_rfl).smear le_rfl).smear le_rfl).smear le_rfl).smear le_rfl).smear le_rfl
  have hlog : x.log2 + 1 ≤ 63 := (Nat.log2_lt hpos).2 hx
  have hwrap : (x + 1 + (sizeCount - 1)) % sizeCount = x := by
    unfold sizeCount
    omega
  have hpow : 2 ^ (x.log2 + 1) ≤ 2 ^ 63 := Nat.pow_le_pow_right (by omega) hlog
  have hone : 1 ≤ 2 ^ (x.log2 + 1) := Nat.one_le_two_pow
  unfold ceilToPow2
  dsimp only
  rw [hwrap, hsmeared.eq_two_pow hpos (hx.trans (by omega)), Nat.sub_add_cancel hone]
  exact Nat.mod_eq_of_lt (hpow.trans_lt (by unfold sizeCount; omega))

end CeilToPow2

variable {α : Type} {maxBlockSize maxSize : ℕ}

/-- The constructor makes the first blocks, each leading to the next and the last to the first. -/
theorem addBlocks_eq (size count : ℕ) (q : Queue α) (hq : q = ⟨fun _ => makeBlock 0, 0, 0, 0, size⟩) :
    (Queue.addBlocks count q).made = count ∧ (Queue.addBlocks count q).frontBlock = 0 ∧
      (Queue.addBlocks count q).tailBlock = 0 ∧ (Queue.addBlocks count q).largestBlockSize = size ∧
      ∀ b < count, (Queue.addBlocks count q).blocks b =
        { makeBlock size with next := some (if b + 1 = count then 0 else b + 1) } := by
  induction count with
  | zero =>
    subst hq
    exact ⟨rfl, rfl, rfl, rfl, nofun⟩
  | succ count ih =>
    obtain ⟨hmade, hfront, htail, hlargest, hblocks⟩ := ih
    unfold Queue.addBlocks Queue.addBlock
    rw [hmade, hlargest]
    by_cases hzero : count = 0
    · rw [if_pos hzero]
      refine ⟨rfl, hfront, htail, rfl, fun b hb => ?_⟩
      obtain rfl : b = count := by omega
      dsimp only
      rw [Function.update_self, if_pos rfl]
    · rw [if_neg hzero]
      refine ⟨rfl, hfront, htail, rfl, fun b hb => ?_⟩
      have hlast : count - 1 ≠ count := by omega
      rcases eq_or_ne b (count - 1) with rfl | hne
      · rw [Queue.modify_blocks_self]
        dsimp only
        have hnext : count - 1 + 1 = count := by omega
        have hnot : ¬ count = count + 1 := by omega
        rw [Function.update_of_ne hlast, hblocks _ (by omega), hnext, if_neg hnot]
      · rw [Queue.modify_blocks_of_ne hne]
        dsimp only
        rcases eq_or_ne b count with rfl | hnew
        · rw [Function.update_self, if_pos rfl]
        · rw [Function.update_of_ne hnew, hblocks b (by omega), if_neg (by omega), if_neg (by omega)]

/-- New blocks of one size are a queue in order. -/
theorem addBlocks_inOrder {k count least : ℕ} (hleast : least + 1 = 2 ^ k)
    (hcapacity : maxSize ≤ least * max 1 count) :
    InOrder least maxSize
      (⟨Queue.addBlocks (count + 1) ⟨fun _ => makeBlock 0, 0, 0, 0, 2 ^ k⟩, none, none, [], []⟩ : QueueState α) := by
  obtain ⟨hmade, hfront, htail, hlargest, hblocks⟩ :=
    addBlocks_eq (α := α) (2 ^ k) (count + 1) ⟨fun _ => makeBlock 0, 0, 0, 0, 2 ^ k⟩ rfl
  generalize Queue.addBlocks (count + 1) (⟨fun _ => makeBlock 0, 0, 0, 0, 2 ^ k⟩ : Queue α) = q at *
  have hring : [0] ++ ([] ++ List.range' 1 count) = List.range (count + 1) := by
    rw [List.range_eq_range']
    rfl
  have hmem (b : ℕ) (hb : b ∈ [0] ++ ([] ++ List.range' 1 count)) : b < count + 1 := List.mem_range.1 (hring ▸ hb)
  have hmask : 2 ^ k - 1 = least := by omega
  have hlayout : Layout least q 0 [0] [] (List.range' 1 count) fun _ => [] := by
    refine ⟨hfront ▸ rfl, htail ▸ rfl, hring ▸ List.nodup_range, ?_, fun b hb => hmade ▸ hmem b hb, fun b hb => ?_,
      fun b hb => ?_, fun b hb hne => ?_, fun hne => absurd (hfront.trans htail.symm) hne, fun _ _ => rfl⟩
    · rw [hring, Cycle.chain_range_succ]
      refine ⟨?_, fun b hb => ?_⟩
      · rw [hblocks count (Nat.lt_succ_self _), if_pos rfl]
      · rw [hblocks b (by omega), if_neg (by omega)]
    · rw [hblocks b (hmem b hb)]
      exact hmask.ge
    · rw [hblocks b (hmem b hb), ite_self]
      have hnew : (makeBlock (2 ^ k) : Block α).Holds 0 [] := Block.makeBlock_holds
      exact ⟨hnew.size, hnew.room, hnew.taken_le, hnew.front_le, hnew.tail_eq, hnew.localFront, hnew.localTail, hnew.stored⟩
    · exact absurd ((List.mem_singleton.1 hb).trans hfront.symm) hne
  refine ⟨[0], List.range' 1 count, fun _ => [], hlayout, rfl, nofun, nofun, ?_, ?_, nofun, nofun⟩
  · change maxSize ≤ least * max 1 (([0] ++ ([] ++ List.range' 1 count)).length - 1)
    rwa [hring, List.length_range, Nat.add_sub_cancel]
  · have hless : least < q.largestBlockSize := by omega
    exact ⟨hless, k, hlargest⟩

/-- A block size that the queue asserts: a power of two, at least two. -/
structure BlockSize (maxBlockSize : ℕ) : Prop where
  two_le : 2 ≤ maxBlockSize
  pow : ∃ k, maxBlockSize = 2 ^ k

/-- The queue is made with room for as many elements as it was asked for. -/
theorem init_inOrder (hblock : BlockSize maxBlockSize) (hpos : maxSize ≠ 0) (hsize : maxSize < 2 ^ 63) :
    ∃ least, 1 ≤ least ∧ InOrder least maxSize (init maxBlockSize maxSize : QueueState α) := by
  have hlargest : ceilToPow2 (maxSize + 1) = 2 ^ (maxSize.log2 + 1) := ceilToPow2_succ hpos hsize
  have hroom : maxSize < 2 ^ (maxSize.log2 + 1) := Nat.lt_log2_self
  unfold init Queue.ofSize
  dsimp only
  rw [hlargest]
  split
  · obtain ⟨htwo, k, rfl⟩ := hblock
    obtain ⟨d, hd⟩ : ∃ d, 2 ^ k = d + 1 := ⟨2 ^ k - 1, by omega⟩
    obtain ⟨count, hcount⟩ : ∃ count, (maxSize + 2 ^ k * 2 - 3) / (2 ^ k - 1) = count + 1 := by
      refine Nat.exists_eq_succ_of_ne_zero (Nat.ne_of_gt (Nat.div_pos ?_ ?_))
      · omega
      · omega
    rw [hcount]
    refine ⟨d, by omega, addBlocks_inOrder hd.symm ?_⟩
    have hdivide := Nat.div_add_mod (maxSize + 2 ^ k * 2 - 3) (2 ^ k - 1)
    have hrest : (maxSize + 2 ^ k * 2 - 3) % (2 ^ k - 1) < 2 ^ k - 1 := Nat.mod_lt _ (by omega)
    have hminus : 2 ^ k - 1 = d := by omega
    rw [hcount, hminus, Nat.mul_succ] at hdivide
    rw [hminus] at hrest
    have hcapacity : maxSize ≤ d * count := by omega
    exact hcapacity.trans (Nat.mul_le_mul_left _ (Nat.le_max_right _ _))
  · refine ⟨2 ^ (maxSize.log2 + 1) - 1, by omega, addBlocks_inOrder (by omega) ?_⟩
    rw [Nat.max_eq_left (Nat.zero_le _), Nat.mul_one]
    omega

theorem step_eq_ok {a : Action α} {s s' : QueueState α} :
    step maxBlockSize a s = .ok ⟨⟩ s' ↔ after maxBlockSize s a = .ok s' := by
  unfold step
  cases h : after maxBlockSize s a with
  | ok t => simp
  | error e => simp

/-- First in, first out: the elements come out in the order in which they went in, none of them twice. A dequeue finds
nothing only if the queue was empty when it was called, an enqueue is refused only if `maxSize` elements were in the
queue when it was called. -/
structure Fifo (maxSize : ℕ) (s : QueueState α) : Prop where
  order : s.handed <+: s.accepted
  missed : ∀ d ∈ s.dequeued, d.2 = none → d.1 = 0
  refused : ∀ c ∈ s.enqueued, c.2 = false → c.1.mode = .cannotAlloc → maxSize ≤ c.1.held

theorem InOrder.fifo {least : ℕ} {s : QueueState α} (h : InOrder least maxSize s) : Fifo maxSize s := by
  obtain ⟨used, free, items, h⟩ := h
  refine ⟨?_, h.missed, h.refused⟩
  rw [h.contents]
  exact List.prefix_append ..

/-- A step keeps the queue in order, and if it is not taken its thread is not there for it. -/
theorem InOrder.step {least : ℕ} {s : QueueState α} (hleast : 1 ≤ least) (h : InOrder least maxSize s) (a : Action α) :
    wp (step maxBlockSize a) (fun _ => InOrder least maxSize) (fun e _ => e = .idle) s := by
  unfold wp ReaderWriterQueue.step
  by_cases hready : Ready s a
  · obtain ⟨s', hs', hinOrder⟩ := h.proceeds maxBlockSize hleast hready
    rw [hs']
    exact hinOrder
  · rw [after_of_not_ready hready]

/-- An element is enqueued; while the next is on its way to the second block the first is dequeued, and the consumer
follows with the last step of the producer still to come. -/
def crossing : List (Action ℕ) :=
  [.enqueue 10 .cannotAlloc, .producer true, .producer true, .enqueue 20 .cannotAlloc, .producer true, .tryDequeue,
    .producer true, .consumer, .producer true, .consumer, .consumer, .producer true, .tryDequeue, .producer true,
    .consumer, .consumer, .producer true, .tryDequeue, .consumer, .consumer, .consumer, .consumer, .consumer, .consumer,
    .consumer, .consumer]

/-- How many steps `inner_enqueue` still takes at most. -/
def EnqueuePoint.left : EnqueuePoint → ℕ
  | .readFront => 6
  | .readFrontBlock => 5
  | .readNextFront => 4
  | .constructNext => 3
  | .make => 3
  | .storeNextTail => 2
  | .linkBlock _ => 2
  | .construct => 2
  | .storeTail => 1
  | .storeTailBlock _ => 1

/-- How many steps `try_dequeue` still takes at most. -/
def DequeuePoint.left : DequeuePoint α → ℕ
  | .readTail => 8
  | .readTailBlock => 7
  | .readTailAgain => 6
  | .readNext => 5
  | .readNextTail _ => 4
  | .storeFrontBlock _ => 3
  | .take => 2
  | .storeFront _ => 1

/-- `left` of the call of the producer. -/
def QueueState.enqueueLeft (s : QueueState α) : ℕ := s.enqueuing.elim 0 fun call => call.2.left

/-- `left` of the call of the consumer. -/
def QueueState.dequeueLeft (s : QueueState α) : ℕ := s.dequeuing.elim 0 fun call => call.2.left

theorem EnqueuePoint.left_pos (point : EnqueuePoint) : 0 < point.left := by
  cases point <;> exact Nat.succ_pos _

theorem DequeuePoint.left_pos (point : DequeuePoint α) : 0 < point.left := by
  cases point <;> exact Nat.succ_pos _

/-- A step of the producer goes on with less to do, or returns. -/
theorem enqueueStep_cases {allocates : Bool} {s s' : QueueState α} {call : EnqueueCall α} {point : EnqueuePoint}
    (h : s.enqueueStep maxBlockSize allocates call point = .ok s') :
    (∃ q point', s' = s.produce q call point' ∧ point'.left < point.left) ∨
      ∃ q result, s' = s.finishEnqueue q call result := by
  unfold QueueState.enqueueStep at h
  cases point with
  | construct | linkBlock n =>
    cases h
    exact .inl ⟨_, _, rfl, Nat.lt_succ_self _⟩
  | storeTail | storeTailBlock n =>
    cases h
    exact .inr ⟨_, _, rfl⟩
  | readFront =>
    cases h
    refine .inl ⟨_, _, rfl, ?_⟩
    split <;> simp [EnqueuePoint.left]
  | readFrontBlock =>
    dsimp only at h
    split at h
    · cases h
      exact .inl ⟨_, _, rfl, Nat.lt_succ_self _⟩
    · split at h
      · cases h
        exact .inl ⟨_, _, rfl, by simp [EnqueuePoint.left]⟩
      · cases h
        exact .inr ⟨_, _, rfl⟩
  | readNextFront =>
    dsimp only at h
    split at h
    · cases h
    · split at h
      · cases h
        exact .inl ⟨_, _, rfl, Nat.lt_succ_self _⟩
      · cases h
  | constructNext | storeNextTail =>
    dsimp only at h
    split at h
    · cases h
    · cases h
      exact .inl ⟨_, _, rfl, Nat.lt_succ_self _⟩
  | make =>
    dsimp only at h
    split at h
    · cases h
      exact .inl ⟨_, _, rfl, Nat.lt_succ_self _⟩
    · cases h
      exact .inr ⟨_, _, rfl⟩

/-- A step of the consumer goes on with less to do, or returns. -/
theorem dequeueStep_cases {s s' : QueueState α} {held : ℕ} {point : DequeuePoint α}
    (h : s.dequeueStep held point = .ok s') :
    (∃ q point', s' = s.consume q held point' ∧ point'.left < point.left) ∨
      ∃ q result, s' = s.finishDequeue q held result := by
  unfold QueueState.dequeueStep at h
  cases point with
  | storeFrontBlock n =>
    cases h
    exact .inl ⟨_, _, rfl, Nat.lt_succ_self _⟩
  | storeFront x =>
    cases h
    exact .inr ⟨_, _, rfl⟩
  | readTail | readTailAgain =>
    cases h
    refine .inl ⟨_, _, rfl, ?_⟩
    split <;> simp [DequeuePoint.left]
  | readTailBlock =>
    dsimp only at h
    split at h
    · cases h
      exact .inl ⟨_, _, rfl, Nat.lt_succ_self _⟩
    · cases h
      exact .inr ⟨_, _, rfl⟩
  | readNext | take =>
    dsimp only at h
    split at h
    · cases h
    · cases h
      exact .inl ⟨_, _, rfl, Nat.lt_succ_self _⟩
  | readNextTail n =>
    dsimp only at h
    split at h
    · cases h
      exact .inl ⟨_, _, rfl, Nat.lt_succ_self _⟩
    · cases h

/-- A step of the producer. -/
def Action.isProducer : Action α → Bool
  | .producer _ => true
  | _ => false

/-- A call of `inner_enqueue`. -/
def Action.isEnqueue : Action α → Bool
  | .enqueue _ _ => true
  | _ => false

/-- A step of the consumer. -/
def Action.isConsumer : Action α → Bool
  | .consumer => true
  | _ => false

/-- A call of `try_dequeue`. -/
def Action.isTryDequeue : Action α → Bool
  | .tryDequeue => true
  | _ => false

theorem enqueueLeft_le (s : QueueState α) : s.enqueueLeft ≤ 6 := by
  unfold QueueState.enqueueLeft
  rcases s.enqueuing with _ | ⟨call, point⟩
  · exact Nat.zero_le _
  · cases point <;> simp [EnqueuePoint.left]

theorem dequeueLeft_le (s : QueueState α) : s.dequeueLeft ≤ 8 := by
  unfold QueueState.dequeueLeft
  rcases s.dequeuing with _ | ⟨held, point⟩
  · exact Nat.zero_le _
  · cases point <;> simp [DequeuePoint.left]

/-- What a step takes from what is left to do: nothing of the call of the other thread. -/
theorem left_step {a : Action α} {s s' : QueueState α} (h : step maxBlockSize a s = .ok ⟨⟩ s') :
    (if a.isProducer then 1 else 0) + s'.enqueueLeft ≤ (if a.isEnqueue then 6 else 0) + s.enqueueLeft ∧
      (if a.isConsumer then 1 else 0) + s'.dequeueLeft ≤ (if a.isTryDequeue then 8 else 0) + s.dequeueLeft := by
  rw [step_eq_ok] at h
  have henqueueLeft := enqueueLeft_le s'
  have hdequeueLeft := dequeueLeft_le s'
  unfold after at h
  cases a with
  | enqueue element mode =>
    dsimp only at h
    split at h
    · cases h
      have hkept : (s.innerEnqueue element mode).dequeueLeft = s.dequeueLeft := rfl
      simp only [Action.isProducer, Action.isEnqueue, Action.isConsumer, Action.isTryDequeue, if_true,
        Bool.false_eq_true, if_false]
      omega
    · cases h
  | producer allocates =>
    dsimp only at h
    split at h
    · cases h
    · rename_i call point henqueuing
      have hleft : s.enqueueLeft = point.left := by
        unfold QueueState.enqueueLeft
        rw [henqueuing]
        rfl
      have hless : s'.enqueueLeft < point.left ∧ s'.dequeueLeft = s.dequeueLeft := by
        rcases enqueueStep_cases h with ⟨q, point', rfl, hless⟩ | ⟨q, result, rfl⟩
        · exact ⟨hless, rfl⟩
        · exact ⟨point.left_pos, rfl⟩
      simp only [Action.isProducer, Action.isEnqueue, Action.isConsumer, Action.isTryDequeue, if_true,
        Bool.false_eq_true, if_false]
      omega
  | tryDequeue =>
    dsimp only at h
    split at h
    · cases h
      have hkept : s.tryDequeue.enqueueLeft = s.enqueueLeft := rfl
      simp only [Action.isProducer, Action.isEnqueue, Action.isConsumer, Action.isTryDequeue, if_true,
        Bool.false_eq_true, if_false]
      omega
    · cases h
  | consumer =>
    dsimp only at h
    split at h
    · cases h
    · rename_i held point hdequeuing
      have hleft : s.dequeueLeft = point.left := by
        unfold QueueState.dequeueLeft
        rw [hdequeuing]
        rfl
      have hless : s'.dequeueLeft < point.left ∧ s'.enqueueLeft = s.enqueueLeft := by
        rcases dequeueStep_cases h with ⟨q, point', rfl, hless⟩ | ⟨q, result, rfl⟩
        · exact ⟨hless, rfl⟩
        · exact ⟨point.left_pos, rfl⟩
      simp only [Action.isProducer, Action.isEnqueue, Action.isConsumer, Action.isTryDequeue, if_true,
        Bool.false_eq_true, if_false]
      omega

end Vpsim.Cosim.ReaderWriterQueue
