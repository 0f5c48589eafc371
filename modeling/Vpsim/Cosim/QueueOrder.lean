import Vpsim.Cosim.QueueBlocks

/-!
# First in, first out, in every interleaving

Where a thread is says what it knows of the queue: the producer, whether the tail block has room or was full; the
consumer, whether the front block has items. What the other thread does in between keeps it, since it only adds items at
the tail or takes them from the front. So the elements come out in the order in which they went in.
-/

namespace Vpsim.Cosim.ReaderWriterQueue

open Vpsim.Lib

variable {α : Type}

/-- The block that the producer has filled and not yet reached. -/
def EnqueuePoint.early : EnqueuePoint → List ℕ
  | .storeTailBlock block => [block]
  | _ => []

/-- Whether the consumer has destroyed the first item and not yet moved the front. -/
def DequeuePoint.taken : DequeuePoint α → ℕ
  | .storeFront _ => 1
  | _ => 0

/-- `early` of the call of the producer. -/
def QueueState.early (s : QueueState α) : List ℕ := s.enqueuing.elim [] fun call => call.2.early

/-- `taken` of the call of the consumer. -/
def QueueState.taken (s : QueueState α) : ℕ := s.dequeuing.elim 0 fun call => call.2.taken

variable {least maxSize : ℕ} {q q' : Queue α} {used used' early free free' : List ℕ} {items items' : ℕ → List α}
  {call : EnqueueCall α} {held : ℕ}

/-- The producer sees room behind the tail of the block. -/
def HasRoom (b : Block α) : Prop := b.after b.tail ≠ b.localFront

/-- The tail block is full, if the consumer has not reached it. -/
def Full (q : Queue α) (items : ℕ → List α) : Prop :=
  q.tailBlock ≠ q.frontBlock → (items q.tailBlock).length = (q.blocks q.tailBlock).sizeMask

/-- What the producer knows where it is. -/
def Producing (least : ℕ) (q : Queue α) (used free : List ℕ) (items : ℕ → List α) (call : EnqueueCall α) :
    EnqueuePoint → Prop
  | .readFront => True
  | .construct => HasRoom (q.blocks q.tailBlock)
  | .storeTail => HasRoom (q.blocks q.tailBlock) ∧
      (q.blocks q.tailBlock).data (q.blocks q.tailBlock).tail = some call.element
  | .readFrontBlock => Full q items ∧ (q.blocks q.tailBlock).sizeMask ≤ call.held
  | .readNextFront => Full q items ∧ free ≠ []
  | .constructNext => Full q items ∧ ∃ n rest, free = n :: rest ∧ HasRoom (q.blocks n)
  | .storeNextTail => Full q items ∧ ∃ n rest, free = n :: rest ∧ HasRoom (q.blocks n) ∧
      (q.blocks n).data (q.blocks n).tail = some call.element
  | .make => Full q items ∧ call.mode = .canAlloc
  | .linkBlock n => Full q items ∧ n ∉ used ++ free ∧ n < q.made ∧ least ≤ (q.blocks n).sizeMask ∧
      (q.blocks n).Holds 0 [call.element] ∧ (q.blocks n).next = (q.blocks q.tailBlock).next
  | .storeTailBlock n => Full q items ∧ items n = [call.element]

/-- What the consumer knows where it is. -/
def Consuming (q : Queue α) (used : List ℕ) (items : ℕ → List α) (held : ℕ) : DequeuePoint α → Prop
  | .readTail => True
  | .readTailBlock => q.frontBlock = q.tailBlock → held = 0
  | .readTailAgain => q.frontBlock ≠ q.tailBlock
  | .readNext => q.frontBlock ≠ q.tailBlock ∧ items q.frontBlock = []
  | .readNextTail n => q.frontBlock ≠ q.tailBlock ∧ items q.frontBlock = [] ∧ ∃ rest, used = q.frontBlock :: n :: rest
  | .storeFrontBlock n => q.frontBlock ≠ q.tailBlock ∧ items q.frontBlock = [] ∧
      (∃ rest, used = q.frontBlock :: n :: rest) ∧ (q.blocks n).front ≠ (q.blocks n).localTail
  | .take => (q.blocks q.frontBlock).front ≠ (q.blocks q.frontBlock).localTail
  | .storeFront x => (q.blocks q.frontBlock).front ≠ (q.blocks q.frontBlock).localTail ∧
      ∃ xs, items q.frontBlock = x :: xs

/-- What a step of the producer leaves to the consumer. -/
structure Grows (q q' : Queue α) (used used' : List ℕ) (items items' : ℕ → List α) : Prop where
  frontBlock : q'.frontBlock = q.frontBlock
  tailBlock : q'.tailBlock = q.tailBlock ∨ q'.tailBlock ≠ q.frontBlock
  reached : used <+: used'
  fronts : ∀ b ∈ used, (q'.blocks b).front = (q.blocks b).front ∧ (q'.blocks b).localTail = (q.blocks b).localTail
  added : ∀ b ∈ used, items b <+: items' b
  settled : ∀ b ∈ used, b ≠ q.tailBlock → items' b = items b

/-- What a step of the consumer leaves to the producer. -/
structure Shrinks (q q' : Queue α) (used used' free free' : List ℕ) (items items' : ℕ → List α) : Prop where
  tailBlock : q'.tailBlock = q.tailBlock
  frontBlock : q'.frontBlock = q.frontBlock ∨ q.frontBlock ≠ q.tailBlock
  made : q'.made = q.made
  freed : free <+: free'
  ring : ∀ b ∈ used' ++ free', b ∈ used ++ free
  outside : ∀ b, b ∉ used ++ free → q'.blocks b = q.blocks b
  same : ∀ b, (q'.blocks b).tail = (q.blocks b).tail ∧ (q'.blocks b).localFront = (q.blocks b).localFront ∧
    (q'.blocks b).sizeMask = (q.blocks b).sizeMask ∧ (q'.blocks b).next = (q.blocks b).next
  data : ∀ b, b = q.tailBlock ∨ b ∈ free →
    (q'.blocks b).data (q.blocks b).tail = (q.blocks b).data (q.blocks b).tail
  untouched : ∀ b, b ≠ q.frontBlock → items' b = items b

theorem Shrinks.hasRoom (h : Shrinks q q' used used' free free' items items') {b : ℕ} (hroom : HasRoom (q.blocks b)) :
    HasRoom (q'.blocks b) := by
  obtain ⟨htail, hlocalFront, hmask, -⟩ := h.same b
  unfold HasRoom Block.after at hroom ⊢
  rwa [htail, hlocalFront, hmask]

theorem Shrinks.full (h : Shrinks q q' used used' free free' items items') (hfull : Full q items) : Full q' items' := by
  intro hne
  rw [h.tailBlock] at hne ⊢
  have htail : q.tailBlock ≠ q.frontBlock := by
    intro heq
    rcases h.frontBlock with hfront | hfront
    · exact hne (heq.trans hfront.symm)
    · exact hfront heq.symm
  rw [h.untouched _ htail, (h.same _).2.2.1]
  exact hfull htail

theorem Shrinks.stored (h : Shrinks q q' used used' free free' items items') {b : ℕ} {x : α}
    (hb : b = q.tailBlock ∨ b ∈ free) (hx : (q.blocks b).data (q.blocks b).tail = some x) :
    (q'.blocks b).data (q'.blocks b).tail = some x := by
  rw [(h.same b).1, h.data b hb, hx]

/-- What the producer knows is kept by the consumer. -/
theorem Producing.shrinks {point : EnqueuePoint} (hknown : Producing least q used free items call point)
    (hearly : ∀ n ∈ point.early, n ≠ q.frontBlock) (h : Shrinks q q' used used' free free' items items') :
    Producing least q' used' free' items' call point := by
  obtain ⟨more, hmore⟩ := h.freed
  cases point with
  | readFront => trivial
  | construct =>
    unfold Producing
    rw [h.tailBlock]
    exact h.hasRoom hknown
  | storeTail =>
    unfold Producing
    rw [h.tailBlock]
    exact ⟨h.hasRoom hknown.1, h.stored (.inl rfl) hknown.2⟩
  | readFrontBlock =>
    refine ⟨h.full hknown.1, ?_⟩
    rw [h.tailBlock, (h.same _).2.2.1]
    exact hknown.2
  | readNextFront =>
    refine ⟨h.full hknown.1, ?_⟩
    rw [← hmore]
    exact List.append_ne_nil_of_left_ne_nil hknown.2 _
  | constructNext =>
    obtain ⟨hfull, n, rest, rfl, hroom⟩ := hknown
    exact ⟨h.full hfull, n, rest ++ more, hmore.symm, h.hasRoom hroom⟩
  | storeNextTail =>
    obtain ⟨hfull, n, rest, rfl, hroom, hx⟩ := hknown
    exact ⟨h.full hfull, n, rest ++ more, hmore.symm, h.hasRoom hroom, h.stored (.inr List.mem_cons_self) hx⟩
  | make => exact ⟨h.full hknown.1, hknown.2⟩
  | linkBlock n =>
    obtain ⟨hfull, hnew, hmade, hleast, hholds, hnext⟩ := hknown
    refine ⟨h.full hfull, fun hmem => hnew (h.ring n hmem), h.made ▸ hmade, ?_⟩
    rw [h.outside n hnew, h.tailBlock, (h.same q.tailBlock).2.2.2]
    exact ⟨hleast, hholds, hnext⟩
  | storeTailBlock n =>
    refine ⟨h.full hknown.1, ?_⟩
    rw [h.untouched n (hearly n (List.mem_singleton_self n))]
    exact hknown.2

/-- What the consumer knows is kept by the producer. -/
theorem Consuming.grows {point : DequeuePoint α} (hknown : Consuming q used items held point)
    (hfront : q.frontBlock ∈ used) (h : Grows q q' used used' items items') : Consuming q' used' items' held point := by
  obtain ⟨more, hmore⟩ := h.reached
  have hmoved : q.frontBlock ≠ q.tailBlock → q'.frontBlock ≠ q'.tailBlock := by
    intro hne
    rw [h.frontBlock]
    rcases h.tailBlock with htail | htail
    · rwa [htail]
    · exact htail.symm
  have hempty : q.frontBlock ≠ q.tailBlock → items q.frontBlock = [] → items' q'.frontBlock = [] := by
    intro hne hnil
    rw [h.frontBlock, h.settled _ hfront hne, hnil]
  have hseen : ∀ b ∈ used, (q.blocks b).front ≠ (q.blocks b).localTail → (q'.blocks b).front ≠ (q'.blocks b).localTail := by
    intro b hb hne
    obtain ⟨hfrontSame, htailSame⟩ := h.fronts b hb
    rwa [hfrontSame, htailSame]
  cases point with
  | readTail => trivial
  | readTailBlock =>
    intro heq
    refine hknown ?_
    by_contra hne
    exact hmoved hne heq
  | readTailAgain => exact hmoved hknown
  | readNext => exact ⟨hmoved hknown.1, hempty hknown.1 hknown.2⟩
  | readNextTail n =>
    obtain ⟨hne, hnil, rest, rfl⟩ := hknown
    refine ⟨hmoved hne, hempty hne hnil, rest ++ more, ?_⟩
    rw [← hmore, h.frontBlock]
    rfl
  | storeFrontBlock n =>
    obtain ⟨hne, hnil, ⟨rest, rfl⟩, hahead⟩ := hknown
    refine ⟨hmoved hne, hempty hne hnil, ⟨rest ++ more, ?_⟩, hseen n (by simp) hahead⟩
    rw [← hmore, h.frontBlock]
    rfl
  | take =>
    unfold Consuming
    rw [h.frontBlock]
    exact hseen _ hfront hknown
  | storeFront x =>
    obtain ⟨hne, xs, hxs⟩ := hknown
    obtain ⟨ys, hys⟩ := h.added _ hfront
    unfold Consuming
    rw [h.frontBlock]
    refine ⟨hseen _ hfront hne, xs ++ ys, ?_⟩
    rw [← hys, hxs, List.cons_append]

/-- The order of the queue: the elements that were enqueued and not dequeued are those of the blocks in use, in order.
The threads know what they should, the blocks have room for `maxSize` elements, an enqueue is refused at that many
elements only, and a dequeue finds nothing in an empty queue only. -/
structure Sound (least maxSize : ℕ) (s : QueueState α) (used free : List ℕ) (items : ℕ → List α) : Prop where
  layout : Layout least s.queue s.taken used s.early free items
  contents : s.accepted = s.handed ++ used.flatMap items
  producing : ∀ call point, s.enqueuing = some (call, point) →
    s.held ≤ call.held ∧ Producing least s.queue used free items call point
  consuming : ∀ held point, s.dequeuing = some (held, point) → held ≤ s.held ∧ Consuming s.queue used items held point
  capacity : maxSize ≤ least * max 1 ((used ++ (s.early ++ free)).length - 1)
  largest : least < s.queue.largestBlockSize ∧ ∃ k, s.queue.largestBlockSize = 2 ^ k
  refused : ∀ c ∈ s.enqueued, c.2 = false → c.1.mode = .cannotAlloc → maxSize ≤ c.1.held
  missed : ∀ d ∈ s.dequeued, d.2 = none → d.1 = 0

namespace Sound

variable {s : QueueState α}

/-- The elements in the queue are those of the used blocks. -/
theorem held_eq (h : Sound least maxSize s used free items) : s.held = (used.flatMap items).length := by
  rw [QueueState.held, h.contents, List.length_append, Nat.add_sub_cancel_left]

/-- The queue stays in order when the producer goes on and knows what its next point needs. -/
theorem produce (h : Sound least maxSize s used free items) {point : EnqueuePoint}
    (hlayout : Layout least q' s.taken used' point.early free' items')
    (hgrows : Grows s.queue q' used used' items items') (hcontents : used'.flatMap items' = used.flatMap items)
    (hlength : (used ++ (s.early ++ free)).length ≤ (used' ++ (point.early ++ free')).length)
    (hlargest : least < q'.largestBlockSize ∧ ∃ k, q'.largestBlockSize = 2 ^ k) (hheld : s.held ≤ call.held)
    (hknown : Producing least q' used' free' items' call point) :
    Sound least maxSize (s.produce q' call point) used' free' items' := by
  refine ⟨hlayout, h.contents.trans (by rw [hcontents]; rfl), ?_, ?_, ?_, hlargest, h.refused, h.missed⟩
  · rintro call' point' ⟨⟩
    exact ⟨hheld, hknown⟩
  · intro held point' hdequeuing
    obtain ⟨hle, hconsuming⟩ := h.consuming held point' hdequeuing
    exact ⟨hle, hconsuming.grows h.layout.frontBlock_mem hgrows⟩
  · refine h.capacity.trans (Nat.mul_le_mul_left _ ?_)
    change _ ≤ max 1 ((used' ++ (point.early ++ free')).length - 1)
    omega

/-- The queue stays in order when the producer returns with its element behind the others, or without it.
-/
theorem finishEnqueue (h : Sound least maxSize s used free items) {result : Bool}
    (hlayout : Layout least q' s.taken used' [] free' items') (hgrows : Grows s.queue q' used used' items items')
    (hcontents : used'.flatMap items' = used.flatMap items ++ if result then [call.element] else [])
    (hlength : (used ++ (s.early ++ free)).length ≤ (used' ++ free').length)
    (hlargest : least < q'.largestBlockSize ∧ ∃ k, q'.largestBlockSize = 2 ^ k)
    (hrefused : result = false → call.mode = .cannotAlloc → maxSize ≤ call.held) :
    Sound least maxSize (s.finishEnqueue q' call result) used' free' items' := by
  have haccepted : (s.finishEnqueue q' call result).accepted = s.accepted ++ if result then [call.element] else [] := by
    unfold QueueState.accepted QueueState.finishEnqueue
    rw [List.filterMap_append]
    cases result <;> rfl
  have horder : (s.finishEnqueue q' call result).accepted = s.handed ++ used'.flatMap items' := by
    rw [haccepted, h.contents, hcontents, List.append_assoc]
  refine ⟨hlayout, horder, nofun, ?_, ?_, hlargest, ?_, h.missed⟩
  · intro held point hdequeuing
    obtain ⟨hle, hconsuming⟩ := h.consuming held point hdequeuing
    refine ⟨hle.trans ?_, hconsuming.grows h.layout.frontBlock_mem hgrows⟩
    refine Nat.sub_le_sub_right ?_ _
    rw [haccepted, List.length_append]
    exact Nat.le_add_right _ _
  · refine h.capacity.trans (Nat.mul_le_mul_left _ ?_)
    change _ ≤ max 1 ((used' ++ ([] ++ free')).length - 1)
    rw [List.nil_append]
    omega
  · intro c hc
    rcases List.mem_append.1 hc with hc | hc
    · exact h.refused c hc
    · rw [List.mem_singleton.1 hc]
      exact hrefused

theorem early_ne_frontBlock (h : Sound least maxSize s used free items) {point : EnqueuePoint}
    (henqueuing : s.enqueuing = some (call, point)) : ∀ n ∈ point.early, n ≠ s.queue.frontBlock := by
  intro n hn heq
  have hearly : s.early = point.early := by
    unfold QueueState.early
    rw [henqueuing]
    rfl
  refine List.disjoint_of_nodup_append h.layout.nodup (heq ▸ h.layout.frontBlock_mem) ?_
  rw [hearly]
  exact List.mem_append_left _ hn

/-- The queue stays in order when the consumer goes on and knows what its next point needs. -/
theorem consume (h : Sound least maxSize s used free items) {point : DequeuePoint α}
    (hlayout : Layout least q' point.taken used' s.early free' items')
    (hshrinks : Shrinks s.queue q' used used' free free' items items')
    (hcontents : used'.flatMap items' = used.flatMap items)
    (hlength : (used ++ (s.early ++ free)).length ≤ (used' ++ (s.early ++ free')).length)
    (hlargest : q'.largestBlockSize = s.queue.largestBlockSize) (hheld : held ≤ s.held)
    (hknown : Consuming q' used' items' held point) :
    Sound least maxSize (s.consume q' held point) used' free' items' := by
  refine ⟨hlayout, h.contents.trans (by rw [hcontents]; rfl), ?_, ?_, ?_, ?_, h.refused, h.missed⟩
  · intro call point' henqueuing
    obtain ⟨hle, hproducing⟩ := h.producing call point' henqueuing
    exact ⟨hle, hproducing.shrinks (h.early_ne_frontBlock henqueuing) hshrinks⟩
  · rintro held' point' ⟨⟩
    exact ⟨hheld, hknown⟩
  · refine h.capacity.trans (Nat.mul_le_mul_left _ ?_)
    change _ ≤ max 1 ((used' ++ (s.early ++ free')).length - 1)
    omega
  · change least < q'.largestBlockSize ∧ ∃ k, q'.largestBlockSize = 2 ^ k
    rw [hlargest]
    exact h.largest

/-- The queue stays in order when the consumer returns with the first element, or with none. -/
theorem finishDequeue (h : Sound least maxSize s used free items) {result : Option α}
    (hlayout : Layout least q' 0 used' s.early free' items')
    (hshrinks : Shrinks s.queue q' used used' free free' items items')
    (hcontents : used.flatMap items = result.toList ++ used'.flatMap items')
    (hlength : (used ++ (s.early ++ free)).length ≤ (used' ++ (s.early ++ free')).length)
    (hlargest : q'.largestBlockSize = s.queue.largestBlockSize) (hmissed : result = none → held = 0) :
    Sound least maxSize (s.finishDequeue q' held result) used' free' items' := by
  have hhanded : (s.finishDequeue q' held result).handed = s.handed ++ result.toList := by
    unfold QueueState.handed QueueState.finishDequeue
    rw [List.filterMap_append]
    cases result <;> rfl
  refine ⟨hlayout, ?_, ?_, nofun, ?_, ?_, h.refused, ?_⟩
  · rw [hhanded, List.append_assoc, ← hcontents]
    exact h.contents
  · intro call point henqueuing
    obtain ⟨hle, hproducing⟩ := h.producing call point henqueuing
    refine ⟨le_trans ?_ hle, hproducing.shrinks (h.early_ne_frontBlock henqueuing) hshrinks⟩
    refine Nat.sub_le_sub_left ?_ _
    rw [hhanded, List.length_append]
    exact Nat.le_add_right _ _
  · refine h.capacity.trans (Nat.mul_le_mul_left _ ?_)
    change _ ≤ max 1 ((used' ++ (s.early ++ free')).length - 1)
    omega
  · change least < q'.largestBlockSize ∧ ∃ k, q'.largestBlockSize = 2 ^ k
    rw [hlargest]
    exact h.largest
  · intro d hd
    rcases List.mem_append.1 hd with hd | hd
    · exact h.missed d hd
    · rw [List.mem_singleton.1 hd]
      exact hmissed

end Sound

/-- The queue is in order. -/
def InOrder (least maxSize : ℕ) (s : QueueState α) : Prop := ∃ used free items, Sound least maxSize s used free items

theorem length_le_flatMap {b : ℕ} (hb : b ∈ used) : (items b).length ≤ (used.flatMap items).length := by
  obtain ⟨before, after, rfl⟩ := List.append_of_mem hb
  simp only [List.flatMap_append, List.flatMap_cons, List.length_append]
  omega

theorem mul_le_flatMap (h : ∀ b ∈ used, least ≤ (items b).length) : least * used.length ≤ (used.flatMap items).length := by
  induction used with
  | nil => exact Nat.le_of_eq (Nat.mul_zero _)
  | cons b used ih =>
    have hrest := ih fun c hc => h c (List.mem_cons_of_mem _ hc)
    have hb := h b List.mem_cons_self
    rw [List.flatMap_cons, List.length_append, List.length_cons, Nat.mul_succ]
    omega

/-- The items of a block that is not listed do not count. -/
theorem flatMap_update {b : ℕ} (hb : b ∉ used) (xs : List α) :
    used.flatMap (Function.update items b xs) = used.flatMap items := by
  refine List.flatMap_congr fun c hc => Function.update_of_ne ?_ _ _
  rintro rfl
  exact hb hc

theorem Grows.refl : Grows q q used used items items :=
  ⟨rfl, .inl rfl, List.prefix_rfl, fun _ _ => ⟨rfl, rfl⟩, fun _ _ => List.prefix_rfl, fun _ _ _ => rfl⟩

theorem Shrinks.refl : Shrinks q q used used free free items items :=
  ⟨rfl, .inl rfl, rfl, List.prefix_rfl, fun _ => id, fun _ _ => rfl, fun _ => ⟨rfl, rfl, rfl, rfl⟩, fun _ _ => rfl,
    fun _ _ => rfl⟩

/-- A step of the producer that changes a block may add items to the tail block. -/
theorem grows_modify {b : ℕ} {f : Block α → Block α}
    (hf : (f (q.blocks b)).front = (q.blocks b).front ∧ (f (q.blocks b)).localTail = (q.blocks b).localTail)
    (hadded : ∀ c ∈ used, items c <+: items' c) (hsettled : ∀ c ∈ used, c ≠ q.tailBlock → items' c = items c) :
    Grows q (q.modify b f) used used items items' := by
  refine ⟨rfl, .inl rfl, List.prefix_rfl, fun c _ => ?_, hadded, hsettled⟩
  rcases eq_or_ne c b with rfl | hne
  · rw [Queue.modify_blocks_self]
    exact hf
  · rw [Queue.modify_blocks_of_ne hne]
    exact ⟨rfl, rfl⟩

/-- A step of the producer that changes a block may leave its items. -/
theorem grows_modify_same {b : ℕ} {f : Block α → Block α}
    (hf : (f (q.blocks b)).front = (q.blocks b).front ∧ (f (q.blocks b)).localTail = (q.blocks b).localTail) :
    Grows q (q.modify b f) used used items items :=
  grows_modify hf (fun _ _ => List.prefix_rfl) fun _ _ _ => rfl

/-- A step of the consumer that changes a block in use may take items from the front block. -/
theorem shrinks_modify {b : ℕ} {f : Block α → Block α} (hb : b ∈ used)
    (hf : (f (q.blocks b)).tail = (q.blocks b).tail ∧ (f (q.blocks b)).localFront = (q.blocks b).localFront ∧
      (f (q.blocks b)).sizeMask = (q.blocks b).sizeMask ∧ (f (q.blocks b)).next = (q.blocks b).next)
    (hdata : (f (q.blocks b)).data (q.blocks b).tail = (q.blocks b).data (q.blocks b).tail)
    (huntouched : ∀ c, c ≠ q.frontBlock → items' c = items c) :
    Shrinks q (q.modify b f) used used free free items items' := by
  refine ⟨rfl, .inl rfl, rfl, List.prefix_rfl, fun _ => id, fun c hc => ?_, fun c => ?_, fun c _ => ?_, huntouched⟩
  · refine Queue.modify_blocks_of_ne ?_ ..
    rintro rfl
    exact hc (List.mem_append_left _ hb)
  · rcases eq_or_ne c b with rfl | hne
    · rw [Queue.modify_blocks_self]
      exact hf
    · rw [Queue.modify_blocks_of_ne hne]
      exact ⟨rfl, rfl, rfl, rfl⟩
  · rcases eq_or_ne c b with rfl | hne
    · rw [Queue.modify_blocks_self]
      exact hdata
    · rw [Queue.modify_blocks_of_ne hne]

/-- A block with its first element holds this element when it is linked in. -/
theorem newBlock_holds {k : ℕ} (hk : 1 < 2 ^ k) (x : α) (next : Option ℕ) :
    ({ (makeBlock (2 ^ k)).construct x with tail := 1, localTail := 1, next := next } : Block α).Holds 0 [x] := by
  have hmask : 2 ^ k - 1 + 1 = 2 ^ k := by omega
  have hone : 1 = (0 + 1) % (2 ^ k - 1 + 1) := by
    rw [hmask, Nat.zero_add, Nat.mod_eq_of_lt hk]
  have hroom : 1 ≤ 2 ^ k - 1 := by omega
  refine ⟨⟨k, hmask⟩, hroom, Nat.zero_le _, Nat.zero_le _, hone, ⟨Nat.zero_le _, 0, hroom, rfl⟩, ⟨1, le_rfl, hone⟩, ?_⟩
  exact Stored.nil.append rfl

end Vpsim.Cosim.ReaderWriterQueue
