import Vpsim.Lib.Run
import Mathlib.Algebra.GroupWithZero.Nat
import Mathlib.Data.Nat.Bitwise
import Mathlib.Logic.Function.Basic

/-!
# The queue between two threads

One thread enqueues, another dequeues. The elements are in a circle of blocks, each of which is a circular buffer. The
producer writes the tails, the consumer the fronts, and both keep a copy of the other's index that may be out of date.

A step of the model goes up to the next access to what both threads see, and the accesses are taken one after the other.
What a thread alone writes is read from the state where the code has kept it in a local variable.
-/

namespace Vpsim.Cosim.ReaderWriterQueue

open Vpsim.Lib

variable {α : Type}

/-- `size_t` has 64 bits. -/
def sizeCount : ℕ := 2 ^ 64

/-- `x |= x >> shift`. -/
def smear (x shift : ℕ) : ℕ := x ||| x >>> shift

/-- `ceilToPow2`. -/
def ceilToPow2 (x : ℕ) : ℕ :=
  let x := (x + (sizeCount - 1)) % sizeCount
  let x := smear (smear (smear x 1) 2) 4
  let x := smear (smear (smear x 8) 16) 32
  (x + 1) % sizeCount

/-- `Block`. A place of `data` holds an element from its construction to its destruction. -/
structure Block (α : Type) where
  front : ℕ
  localTail : ℕ
  tail : ℕ
  localFront : ℕ
  next : Option ℕ
  data : ℕ → Option α
  sizeMask : ℕ

/-- `make_block`, with enough memory. -/
def makeBlock (capacity : ℕ) : Block α := ⟨0, 0, 0, 0, none, fun _ => none, capacity - 1⟩

namespace Block

/-- The index after `i`. -/
def after (b : Block α) (i : ℕ) : ℕ := (i + 1) &&& b.sizeMask

/-- The element constructed at `tail`. -/
def construct (x : α) (b : Block α) : Block α := { b with data := Function.update b.data b.tail (some x) }

/-- The element at `front` destroyed. -/
def destroy (b : Block α) : Block α := { b with data := Function.update b.data b.front none }

/-- `localFront` read anew. -/
def readFront (b : Block α) : Block α := { b with localFront := b.front }

/-- `localTail` read anew. -/
def readTail (b : Block α) : Block α := { b with localTail := b.tail }

/-- The element at `tail` added. -/
def storeTail (b : Block α) : Block α := { b with tail := b.after b.tail }

/-- The element at `front` removed. -/
def storeFront (b : Block α) : Block α := { b with front := b.after b.front }

end Block

/-- `ReaderWriterQueue`, with the blocks by number, in the order in which they were made. -/
structure Queue (α : Type) where
  blocks : ℕ → Block α
  made : ℕ
  frontBlock : ℕ
  tailBlock : ℕ
  largestBlockSize : ℕ

namespace Queue

/-- A block changed in place. -/
def modify (i : ℕ) (f : Block α → Block α) (q : Queue α) : Queue α :=
  { q with blocks := Function.update q.blocks i (f (q.blocks i)) }

/-- A round of the loop that makes the first blocks: the block follows the one before it and leads to the first. -/
def addBlock (q : Queue α) : Queue α :=
  let added := { q with
    blocks := Function.update q.blocks q.made { makeBlock q.largestBlockSize with next := some 0 }
    made := q.made + 1 }
  if q.made = 0 then added else added.modify (q.made - 1) fun last => { last with next := some q.made }

/-- The rounds of the loop that makes the first blocks. -/
def addBlocks : ℕ → Queue α → Queue α
  | 0, q => q
  | count + 1, q => (addBlocks count q).addBlock

/-- `ReaderWriterQueue(maxSize)`, with enough memory. -/
def ofSize (maxBlockSize maxSize : ℕ) : Queue α :=
  let largestBlockSize := ceilToPow2 (maxSize + 1)
  if maxBlockSize * 2 < largestBlockSize then
    addBlocks ((maxSize + maxBlockSize * 2 - 3) / (maxBlockSize - 1)) ⟨fun _ => makeBlock 0, 0, 0, 0, maxBlockSize⟩
  else
    addBlocks 1 ⟨fun _ => makeBlock 0, 0, 0, 0, largestBlockSize⟩

end Queue

/-- `AllocationMode`. -/
inductive AllocationMode where
  | canAlloc
  | cannotAlloc
  deriving DecidableEq

/-- A call of `inner_enqueue`, with the number of elements in the queue at its start. -/
structure EnqueueCall (α : Type) where
  element : α
  mode : AllocationMode
  held : ℕ

/-- Where the producer is in `inner_enqueue`: the access that comes next. -/
inductive EnqueuePoint where
  | readFront
  | construct
  | storeTail
  | readFrontBlock
  | readNextFront
  | constructNext
  | storeNextTail
  | make
  | linkBlock (newBlock : ℕ)
  | storeTailBlock (block : ℕ)
  deriving DecidableEq

/-- Where the consumer is in `try_dequeue`: the access that comes next. -/
inductive DequeuePoint (α : Type) where
  | readTail
  | readTailBlock
  | readTailAgain
  | readNext
  | readNextTail (nextBlock : ℕ)
  | storeFrontBlock (nextBlock : ℕ)
  | take
  | storeFront (result : α)

/-- The queue, the calls of both threads with where they are, and the calls that have returned: each `inner_enqueue`
with what it returned, each `try_dequeue` with the number of elements at its start and its result. -/
structure QueueState (α : Type) where
  queue : Queue α
  enqueuing : Option (EnqueueCall α × EnqueuePoint)
  dequeuing : Option (ℕ × DequeuePoint α)
  enqueued : List (EnqueueCall α × Bool)
  dequeued : List (ℕ × Option α)

/-- Why a step does not happen: its thread is not there, or an assertion fails or memory is read that holds nothing. -/
inductive Fault where
  | idle
  | broken
  deriving DecidableEq

/-- The queue at its start. -/
def init (maxBlockSize maxSize : ℕ) : QueueState α := ⟨.ofSize maxBlockSize maxSize, none, none, [], []⟩

namespace QueueState

/-- The elements that were enqueued. -/
def accepted (s : QueueState α) : List α := s.enqueued.filterMap fun c => if c.2 then some c.1.element else none

/-- The elements that were dequeued. -/
def handed (s : QueueState α) : List α := s.dequeued.filterMap Prod.snd

/-- The number of elements in the queue. -/
def held (s : QueueState α) : ℕ := s.accepted.length - s.handed.length

/-- `inner_enqueue` goes on. -/
def produce (s : QueueState α) (q : Queue α) (call : EnqueueCall α) (point : EnqueuePoint) : QueueState α :=
  { s with queue := q, enqueuing := some (call, point) }

/-- `inner_enqueue` returns. -/
def finishEnqueue (s : QueueState α) (q : Queue α) (call : EnqueueCall α) (result : Bool) : QueueState α :=
  { s with queue := q, enqueuing := none, enqueued := s.enqueued ++ [(call, result)] }

/-- `try_dequeue` goes on. -/
def consume (s : QueueState α) (q : Queue α) (held : ℕ) (point : DequeuePoint α) : QueueState α :=
  { s with queue := q, dequeuing := some (held, point) }

/-- `try_dequeue` returns. -/
def finishDequeue (s : QueueState α) (q : Queue α) (held : ℕ) (result : Option α) : QueueState α :=
  { s with queue := q, dequeuing := none, dequeued := s.dequeued ++ [(held, result)] }

/-- The start of `inner_enqueue`, up to the first index that the consumer writes. -/
def innerEnqueue (s : QueueState α) (element : α) (mode : AllocationMode) : QueueState α :=
  let block := s.queue.blocks s.queue.tailBlock
  s.produce s.queue ⟨element, mode, s.held⟩ (if block.after block.tail ≠ block.localFront then .construct else .readFront)

/-- The next step of `inner_enqueue`. `allocates` says whether there is memory for a block. -/
def enqueueStep (maxBlockSize : ℕ) (allocates : Bool) (s : QueueState α) (call : EnqueueCall α) :
    EnqueuePoint → Except Fault (QueueState α)
  | .readFront =>
    let block := s.queue.blocks s.queue.tailBlock
    .ok (s.produce (s.queue.modify s.queue.tailBlock .readFront) call
      (if block.after block.tail ≠ block.front then .construct else .readFrontBlock))
  | .construct => .ok (s.produce (s.queue.modify s.queue.tailBlock (.construct call.element)) call .storeTail)
  | .storeTail => .ok (s.finishEnqueue (s.queue.modify s.queue.tailBlock .storeTail) call true)
  | .readFrontBlock =>
    if (s.queue.blocks s.queue.tailBlock).next ≠ some s.queue.frontBlock then
      .ok (s.produce s.queue call .readNextFront)
    else
      match call.mode with
      | .canAlloc => .ok (s.produce s.queue call .make)
      | .cannotAlloc => .ok (s.finishEnqueue s.queue call false)
  | .readNextFront =>
    match (s.queue.blocks s.queue.tailBlock).next with
    | none => .error .broken
    | some next =>
      if (s.queue.blocks next).front = (s.queue.blocks next).tail then
        .ok (s.produce (s.queue.modify next .readFront) call .constructNext)
      else .error .broken
  | .constructNext =>
    match (s.queue.blocks s.queue.tailBlock).next with
    | none => .error .broken
    | some next => .ok (s.produce (s.queue.modify next (.construct call.element)) call .storeNextTail)
  | .storeNextTail =>
    match (s.queue.blocks s.queue.tailBlock).next with
    | none => .error .broken
    | some next => .ok (s.produce (s.queue.modify next .storeTail) call (.storeTailBlock next))
  | .make =>
    if allocates then
      let newBlockSize :=
        if maxBlockSize ≤ s.queue.largestBlockSize then s.queue.largestBlockSize else s.queue.largestBlockSize * 2
      let newBlock := { (makeBlock newBlockSize).construct call.element with
        tail := 1
        localTail := 1
        next := (s.queue.blocks s.queue.tailBlock).next }
      let q := { s.queue with
        blocks := Function.update s.queue.blocks s.queue.made newBlock
        made := s.queue.made + 1
        largestBlockSize := newBlockSize }
      .ok (s.produce q call (.linkBlock s.queue.made))
    else .ok (s.finishEnqueue s.queue call false)
  | .linkBlock newBlock =>
    .ok (s.produce (s.queue.modify s.queue.tailBlock fun block => { block with next := some newBlock }) call
      (.storeTailBlock newBlock))
  | .storeTailBlock block => .ok (s.finishEnqueue { s.queue with tailBlock := block } call true)

/-- The start of `try_dequeue`, up to the first index that the producer writes. -/
def tryDequeue (s : QueueState α) : QueueState α :=
  let block := s.queue.blocks s.queue.frontBlock
  s.consume s.queue s.held (if block.front ≠ block.localTail then .take else .readTail)

/-- The next step of `try_dequeue`. -/
def dequeueStep (s : QueueState α) (held : ℕ) : DequeuePoint α → Except Fault (QueueState α)
  | .readTail =>
    let block := s.queue.blocks s.queue.frontBlock
    .ok (s.consume (s.queue.modify s.queue.frontBlock .readTail) held
      (if block.front ≠ block.tail then .take else .readTailBlock))
  | .readTailBlock =>
    if s.queue.frontBlock ≠ s.queue.tailBlock then .ok (s.consume s.queue held .readTailAgain)
    else .ok (s.finishDequeue s.queue held none)
  | .readTailAgain =>
    let block := s.queue.blocks s.queue.frontBlock
    .ok (s.consume (s.queue.modify s.queue.frontBlock .readTail) held
      (if block.front ≠ block.tail then .take else .readNext))
  | .readNext =>
    match (s.queue.blocks s.queue.frontBlock).next with
    | none => .error .broken
    | some nextBlock => .ok (s.consume s.queue held (.readNextTail nextBlock))
  | .readNextTail nextBlock =>
    if (s.queue.blocks nextBlock).front ≠ (s.queue.blocks nextBlock).tail then
      .ok (s.consume (s.queue.modify nextBlock .readTail) held (.storeFrontBlock nextBlock))
    else .error .broken
  | .storeFrontBlock nextBlock => .ok (s.consume { s.queue with frontBlock := nextBlock } held .take)
  | .take =>
    let block := s.queue.blocks s.queue.frontBlock
    match block.data block.front with
    | none => .error .broken
    | some result => .ok (s.consume (s.queue.modify s.queue.frontBlock .destroy) held (.storeFront result))
  | .storeFront result => .ok (s.finishDequeue (s.queue.modify s.queue.frontBlock .storeFront) held (some result))

end QueueState

/-- What happens next: a call, or a step of the call of a thread. -/
inductive Action (α : Type) where
  | enqueue (element : α) (mode : AllocationMode)
  | producer (allocates : Bool)
  | tryDequeue
  | consumer

/-- The state after a step. A thread makes one call at a time. -/
def after (maxBlockSize : ℕ) (s : QueueState α) : Action α → Except Fault (QueueState α)
  | .enqueue element mode => if s.enqueuing.isNone then .ok (s.innerEnqueue element mode) else .error .idle
  | .producer allocates =>
    match s.enqueuing with
    | none => .error .idle
    | some (call, point) => s.enqueueStep maxBlockSize allocates call point
  | .tryDequeue => if s.dequeuing.isNone then .ok s.tryDequeue else .error .idle
  | .consumer =>
    match s.dequeuing with
    | none => .error .idle
    | some (held, point) => s.dequeueStep held point

/-- One step of a run, which ends at one that does not happen. -/
def step (maxBlockSize : ℕ) (a : Action α) : EStateM Fault (QueueState α) PUnit := fun s =>
  match after maxBlockSize s a with
  | .ok s' => .ok ⟨⟩ s'
  | .error e => .error e s

end Vpsim.Cosim.ReaderWriterQueue
