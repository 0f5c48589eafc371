import Vpsim.Cosim.QueueOrder

/-!
# The steps of both threads keep the order

A thread that is in a call can always go on, and the queue is in order after each of its steps. So no assertion fails
and nothing is read that was not constructed, in any interleaving.
-/

namespace Vpsim.Cosim.ReaderWriterQueue

open Vpsim.Lib

variable {α : Type} {least maxSize maxBlockSize : ℕ} {s : QueueState α} {used free : List ℕ} {items : ℕ → List α}
  {call : EnqueueCall α} {held : ℕ} {allocates : Bool}

/-- A step that is taken and leaves the queue in order. -/
def Proceeds (least maxSize : ℕ) (r : Except Fault (QueueState α)) : Prop := ∃ s', r = .ok s' ∧ InOrder least maxSize s'

theorem Sound.proceeds {s' : QueueState α} {used' free' : List ℕ} {items' : ℕ → List α}
    (h : Sound least maxSize s' used' free' items') : Proceeds least maxSize (.ok s') :=
  ⟨s', rfl, used', free', items', h⟩

section Producer

variable {point : EnqueuePoint}

/-- The blocks as the producer in a call sees them. -/
theorem Sound.layout_of_enqueuing (h : Sound least maxSize s used free items)
    (henqueuing : s.enqueuing = some (call, point)) :
    Layout least s.queue s.taken used point.early free items ∧
      (used ++ (s.early ++ free)).length = (used ++ (point.early ++ free)).length := by
  have hearly : s.early = point.early := by
    unfold QueueState.early
    rw [henqueuing]
    rfl
  exact ⟨hearly ▸ h.layout, by rw [hearly]⟩

/-- The start of `inner_enqueue` keeps the queue in order. -/
theorem Sound.innerEnqueue (h : Sound least maxSize s used free items) (hidle : s.enqueuing = none) (element : α)
    (mode : AllocationMode) : InOrder least maxSize (s.innerEnqueue element mode) := by
  have hearly : s.early = [] := by
    unfold QueueState.early
    rw [hidle]
    rfl
  have hgrows : Grows s.queue s.queue used used items items := Grows.refl
  have hlayout := h.layout
  rw [hearly] at hlayout
  unfold QueueState.innerEnqueue
  dsimp only
  split
  · rename_i hroom
    exact ⟨used, free, items, h.produce hlayout hgrows rfl (by rw [hearly]; exact le_rfl) h.largest le_rfl hroom⟩
  · exact ⟨used, free, items, h.produce hlayout hgrows rfl (by rw [hearly]; exact le_rfl) h.largest le_rfl trivial⟩

theorem Sound.readFront (h : Sound least maxSize s used free items) (henqueuing : s.enqueuing = some (call, .readFront)) :
    Proceeds least maxSize (s.enqueueStep maxBlockSize allocates call .readFront) := by
  obtain ⟨hheld, -⟩ := h.producing _ _ henqueuing
  obtain ⟨hlayout, hlength⟩ := h.layout_of_enqueuing henqueuing
  have hmem := hlayout.tailBlock_mem
  have hholds := hlayout.holds _ (Layout.mem_ring hmem)
  have hread := hlayout.modify_same (f := .readFront) (Layout.mem_ring hmem) rfl rfl hholds.readFront (.inr rfl)
  have hgrows : Grows s.queue (s.queue.modify s.queue.tailBlock .readFront) used used items items :=
    grows_modify_same ⟨rfl, rfl⟩
  unfold QueueState.enqueueStep
  dsimp only
  split
  · rename_i hroom
    refine Sound.proceeds (h.produce hread hgrows rfl hlength.le h.largest hheld ?_)
    unfold Producing
    rw [Queue.modify_tailBlock, Queue.modify_blocks_self]
    exact hroom
  · rename_i hroom
    have hfull := hholds.after_tail_eq.1 (not_not.1 hroom)
    refine Sound.proceeds (h.produce hread hgrows rfl hlength.le h.largest hheld ?_)
    unfold Producing Full
    rw [Queue.modify_tailBlock, Queue.modify_blocks_self]
    refine ⟨fun _ => hfull, le_trans ?_ hheld⟩
    rw [h.held_eq]
    exact hfull.symm.trans_le (length_le_flatMap hmem)

theorem Sound.construct (h : Sound least maxSize s used free items) (henqueuing : s.enqueuing = some (call, .construct)) :
    Proceeds least maxSize (s.enqueueStep maxBlockSize allocates call .construct) := by
  obtain ⟨hheld, hroom⟩ := h.producing _ _ henqueuing
  obtain ⟨hlayout, hlength⟩ := h.layout_of_enqueuing henqueuing
  have hmem : s.queue.tailBlock ∈ used ++ ([] ++ free) := Layout.mem_ring hlayout.tailBlock_mem
  have hread := hlayout.modify_same (f := .construct call.element) hmem rfl rfl (hlayout.holds _ hmem).construct (.inr rfl)
  refine Sound.proceeds (h.produce hread (grows_modify_same ⟨rfl, rfl⟩) rfl hlength.le h.largest hheld ?_)
  unfold Producing
  rw [Queue.modify_tailBlock, Queue.modify_blocks_self]
  exact ⟨hroom, Function.update_self ..⟩

theorem Sound.storeTail (h : Sound least maxSize s used free items) (henqueuing : s.enqueuing = some (call, .storeTail)) :
    Proceeds least maxSize (s.enqueueStep maxBlockSize allocates call .storeTail) := by
  obtain ⟨-, hroom, hx⟩ := h.producing _ _ henqueuing
  obtain ⟨hlayout, hlength⟩ := h.layout_of_enqueuing henqueuing
  have hmem := hlayout.tailBlock_mem
  have hholds := hlayout.holds _ (Layout.mem_ring hmem)
  have hnotFree : s.queue.tailBlock ∉ free := fun hfree =>
    List.disjoint_of_nodup_append hlayout.nodup hmem (List.mem_append_right _ hfree)
  have hstored := hlayout.modify (f := .storeTail) (Layout.mem_ring hmem) (.inr rfl) rfl rfl (hholds.storeTail hroom hx)
    (fun _ _ hne => absurd rfl hne) (fun _ _ => List.append_ne_nil_of_right_ne_nil _ (List.cons_ne_nil _ _))
    (fun hfree => absurd hfree hnotFree)
  have hgrows : Grows s.queue (s.queue.modify s.queue.tailBlock .storeTail) used used items
      (Function.update items s.queue.tailBlock (items s.queue.tailBlock ++ [call.element])) := by
    refine grows_modify ⟨rfl, rfl⟩ (fun c _ => ?_) fun c _ hne => Function.update_of_ne hne ..
    rcases eq_or_ne c s.queue.tailBlock with rfl | hne
    · rw [Function.update_self]
      exact List.prefix_append ..
    · rw [Function.update_of_ne hne]
  refine Sound.proceeds (h.finishEnqueue hstored hgrows ?_ hlength.le h.largest fun hresult => nomatch hresult)
  obtain ⟨before, rfl⟩ := List.getLast?_eq_some_iff.1 hlayout.last
  have hnotBefore : s.queue.tailBlock ∉ before := fun hbefore =>
    List.disjoint_of_nodup_append (List.nodup_append.1 hlayout.nodup).1 hbefore (List.mem_singleton_self _)
  simp only [List.flatMap_append, flatMap_update hnotBefore, List.flatMap_cons, List.flatMap_nil, Function.update_self,
    List.append_nil, List.append_assoc, if_true]

/-- With all blocks in use and those behind the front block full, the queue holds what it was made for. -/
theorem Sound.maxSize_le (h : Sound least maxSize s used [] items) (hearly : s.early = [])
    (hfull : Full s.queue items) (hheld : s.held ≤ held)
    (hmask : (s.queue.blocks s.queue.tailBlock).sizeMask ≤ held) : maxSize ≤ held := by
  have hlayout := h.layout
  have hcapacity := h.capacity
  rw [hearly] at hlayout hcapacity
  rw [List.append_nil, List.append_nil] at hcapacity
  by_cases heq : s.queue.frontBlock = s.queue.tailBlock
  · have hleast := hlayout.least _ (Layout.mem_ring hlayout.tailBlock_mem)
    rw [hlayout.used_eq_singleton heq, List.length_singleton, Nat.sub_self, Nat.max_zero, Nat.mul_one] at hcapacity
    exact hcapacity.trans (hleast.trans hmask)
  · obtain ⟨n, rest, rfl⟩ := hlayout.used_eq_cons_cons heq
    have hfirst : s.queue.frontBlock ∉ n :: rest := (List.nodup_cons.1 (List.nodup_append.1 hlayout.nodup).1).1
    have hroom : ∀ b ∈ n :: rest, least ≤ (items b).length := by
      intro b hb
      have hleast := hlayout.least b (Layout.mem_ring (List.mem_cons_of_mem _ hb))
      rcases eq_or_ne b s.queue.tailBlock with rfl | hne
      · rwa [hfull (Ne.symm heq)]
      · rwa [hlayout.full b (List.mem_cons_of_mem _ hb) (fun hfront => hfirst (hfront ▸ hb)) hne]
    have hcontents := mul_le_flatMap hroom
    have hall : (n :: rest).length = max 1 ((s.queue.frontBlock :: n :: rest).length - 1) := by
      simp only [List.length_cons]
      omega
    rw [hall] at hcontents
    have hsplit : ((s.queue.frontBlock :: n :: rest).flatMap items).length =
        (items s.queue.frontBlock).length + ((n :: rest).flatMap items).length := by
      rw [List.flatMap_cons, List.length_append]
    have hcount := h.held_eq
    omega

theorem Sound.readFrontBlock (h : Sound least maxSize s used free items)
    (henqueuing : s.enqueuing = some (call, .readFrontBlock)) :
    Proceeds least maxSize (s.enqueueStep maxBlockSize allocates call .readFrontBlock) := by
  obtain ⟨hheld, hfull, hmask⟩ := h.producing _ _ henqueuing
  obtain ⟨hlayout, hlength⟩ := h.layout_of_enqueuing henqueuing
  have hgrows : Grows s.queue s.queue used used items items := Grows.refl
  unfold QueueState.enqueueStep
  dsimp only
  cases free with
  | nil =>
    rw [hlayout.next_tailBlock_of_nil, if_neg (not_not.2 rfl)]
    split
    · rename_i hmode
      exact Sound.proceeds (h.produce hlayout hgrows rfl hlength.le h.largest hheld ⟨hfull, hmode⟩)
    · have hearly : s.early = [] := by
        unfold QueueState.early
        rw [henqueuing]
        rfl
      exact Sound.proceeds (h.finishEnqueue hlayout hgrows (List.append_nil _).symm hlength.le h.largest
        fun _ _ => h.maxSize_le hearly hfull hheld hmask)
  | cons n rest =>
    have hne : n ≠ s.queue.frontBlock := by
      rintro rfl
      exact List.disjoint_of_nodup_append hlayout.nodup hlayout.frontBlock_mem List.mem_cons_self
    have hnext := hlayout.next_tailBlock rfl
    rw [if_pos (by rwa [hnext, Ne, Option.some_inj])]
    exact Sound.proceeds (h.produce hlayout hgrows rfl hlength.le h.largest hheld ⟨hfull, List.cons_ne_nil _ _⟩)

/-- The block behind the tail block, while the producer goes on to it. -/
theorem Layout.ahead {n : ℕ} {rest : List ℕ} (h : Layout least s.queue s.taken used [] (n :: rest) items) :
    n ∈ used ++ ([] ++ n :: rest) ∧ n ∉ used ∧ n ≠ s.queue.tailBlock ∧ n ≠ s.queue.frontBlock ∧
      (s.queue.blocks n).Holds 0 [] ∧ items n = [] := by
  have hmem : n ∈ used ++ ([] ++ n :: rest) := List.mem_append_right _ List.mem_cons_self
  have hnot : n ∉ used := fun hused => List.disjoint_of_nodup_append h.nodup hused List.mem_cons_self
  have hfront : n ≠ s.queue.frontBlock := fun heq => hnot (heq ▸ h.frontBlock_mem)
  have hitems : items n = [] := h.empty n List.mem_cons_self
  have hholds := h.holds n hmem
  rw [if_neg hfront, hitems] at hholds
  exact ⟨hmem, hnot, fun heq => hnot (heq ▸ h.tailBlock_mem), hfront, hholds, hitems⟩

/-- Changing a block other than the tail block leaves the tail block full. -/
theorem Full.modify {q : Queue α} {n : ℕ} {f : Block α → Block α} (h : Full q items) (hn : n ≠ q.tailBlock) :
    Full (q.modify n f) items := by
  unfold Full
  rw [Queue.modify_frontBlock, Queue.modify_tailBlock, Queue.modify_blocks_of_ne hn.symm]
  exact h

theorem Sound.readNextFront (hleast : 1 ≤ least) (h : Sound least maxSize s used free items)
    (henqueuing : s.enqueuing = some (call, .readNextFront)) :
    Proceeds least maxSize (s.enqueueStep maxBlockSize allocates call .readNextFront) := by
  obtain ⟨hheld, hfull, hfree⟩ := h.producing _ _ henqueuing
  obtain ⟨hlayout, hlength⟩ := h.layout_of_enqueuing henqueuing
  obtain ⟨n, rest, rfl⟩ := List.exists_cons_of_ne_nil hfree
  obtain ⟨hmem, -, htail, -, hholds, hitems⟩ := hlayout.ahead
  have hread := hlayout.modify_same (f := .readFront) hmem rfl rfl (hlayout.holds n hmem).readFront (.inr rfl)
  unfold QueueState.enqueueStep
  simp only [hlayout.next_tailBlock rfl, hholds.front_eq_tail.2 rfl, if_true]
  refine Sound.proceeds (h.produce hread (grows_modify_same ⟨rfl, rfl⟩) rfl hlength.le h.largest hheld ?_)
  refine ⟨hfull.modify htail, n, rest, rfl, ?_⟩
  rw [Queue.modify_blocks_self]
  exact hholds.after_tail_ne (hleast.trans (hlayout.least n hmem))

theorem Sound.constructNext (h : Sound least maxSize s used free items)
    (henqueuing : s.enqueuing = some (call, .constructNext)) :
    Proceeds least maxSize (s.enqueueStep maxBlockSize allocates call .constructNext) := by
  obtain ⟨hheld, hfull, n, rest, rfl, hroom⟩ := h.producing _ _ henqueuing
  obtain ⟨hlayout, hlength⟩ := h.layout_of_enqueuing henqueuing
  obtain ⟨hmem, -, htail, -, -, -⟩ := hlayout.ahead
  have hread := hlayout.modify_same (f := .construct call.element) hmem rfl rfl (hlayout.holds n hmem).construct (.inr rfl)
  unfold QueueState.enqueueStep
  simp only [hlayout.next_tailBlock rfl]
  refine Sound.proceeds (h.produce hread (grows_modify_same ⟨rfl, rfl⟩) rfl hlength.le h.largest hheld ?_)
  refine ⟨hfull.modify htail, n, rest, rfl, ?_⟩
  rw [Queue.modify_blocks_self]
  exact ⟨hroom, Function.update_self ..⟩

theorem Sound.storeNextTail (h : Sound least maxSize s used free items)
    (henqueuing : s.enqueuing = some (call, .storeNextTail)) :
    Proceeds least maxSize (s.enqueueStep maxBlockSize allocates call .storeNextTail) := by
  obtain ⟨hheld, hfull, n, rest, rfl, hroom, hx⟩ := h.producing _ _ henqueuing
  obtain ⟨hlayout, hlength⟩ := h.layout_of_enqueuing henqueuing
  obtain ⟨hmem, hnot, htail, hfront, hholds, hitems⟩ := hlayout.ahead
  have hshift : Layout least s.queue s.taken used [n] rest items :=
    { hlayout with empty := fun b hb => hlayout.empty b (List.mem_cons_of_mem _ hb) }
  have hnotRest : n ∉ rest := (List.nodup_cons.1 (List.nodup_append.1 hlayout.nodup).2.1).1
  have hstore : ((s.queue.blocks n).storeTail).Holds (if n = s.queue.frontBlock then s.taken else 0) [call.element] := by
    rw [if_neg hfront]
    exact hholds.storeTail hroom hx
  have hstored := hshift.modify (f := .storeTail) hmem (.inr rfl) rfl rfl hstore (fun hused => absurd hused hnot)
    (fun heq => absurd heq htail) (fun hrest => absurd hrest hnotRest)
  have hkept : ∀ c ∈ used, Function.update items n [call.element] c = items c := by
    intro c hc
    refine Function.update_of_ne ?_ ..
    rintro rfl
    exact hnot hc
  have hgrows : Grows s.queue (s.queue.modify n .storeTail) used used items (Function.update items n [call.element]) :=
    grows_modify ⟨rfl, rfl⟩ (fun c hc => (hkept c hc).symm ▸ List.prefix_rfl) fun c hc _ => hkept c hc
  unfold QueueState.enqueueStep
  simp only [hlayout.next_tailBlock rfl]
  refine Sound.proceeds (h.produce hstored hgrows (flatMap_update hnot _) hlength.le h.largest hheld ?_)
  refine ⟨?_, Function.update_self ..⟩
  intro hne
  rw [Queue.modify_tailBlock, Queue.modify_blocks_of_ne htail.symm, Function.update_of_ne htail.symm]
  exact hfull hne

theorem Sound.make (hleast : 1 ≤ least) (h : Sound least maxSize s used free items)
    (henqueuing : s.enqueuing = some (call, .make)) :
    Proceeds least maxSize (s.enqueueStep maxBlockSize allocates call .make) := by
  obtain ⟨hheld, hfull, hmode⟩ := h.producing _ _ henqueuing
  obtain ⟨hlayout, hlength⟩ := h.layout_of_enqueuing henqueuing
  unfold QueueState.enqueueStep
  dsimp only
  cases allocates with
  | false =>
    rw [if_neg Bool.false_ne_true]
    refine Sound.proceeds (h.finishEnqueue hlayout Grows.refl (List.append_nil _).symm hlength.le h.largest fun _ hcannot => ?_)
    rw [hmode] at hcannot
    cases hcannot
  | true =>
    rw [if_pos rfl]
    obtain ⟨hless, k, hk⟩ := h.largest
    have hsize : ∃ j, (if maxBlockSize ≤ s.queue.largestBlockSize then s.queue.largestBlockSize
        else s.queue.largestBlockSize * 2) = 2 ^ j ∧ least < 2 ^ j := by
      split
      · exact ⟨k, hk, hk ▸ hless⟩
      · refine ⟨k + 1, by rw [hk, Nat.pow_succ], ?_⟩
        rw [Nat.pow_succ, ← hk]
        omega
    obtain ⟨j, hj, hleastj⟩ := hsize
    rw [hj]
    have hkept : ∀ b, b < s.queue.made → ∀ block, Function.update s.queue.blocks s.queue.made block b = s.queue.blocks b :=
      fun b hb block => Function.update_of_ne hb.ne ..
    have hmade := hlayout.made
    have htail := hmade _ (Layout.mem_ring hlayout.tailBlock_mem)
    refine Sound.proceeds (h.produce (hlayout.congr (fun b hb => hkept b (hmade b hb) _) rfl rfl (Nat.le_succ _)) ?_ rfl
      hlength.le ⟨hleastj, j, rfl⟩ hheld ⟨?_, ?_, Nat.lt_succ_self _, ?_⟩)
    · refine ⟨rfl, .inl rfl, List.prefix_rfl, fun b hb => ?_, fun _ _ => List.prefix_rfl, fun _ _ _ => rfl⟩
      dsimp only
      rw [hkept b (hmade b (Layout.mem_ring hb))]
      exact ⟨rfl, rfl⟩
    · intro hne
      dsimp only
      rw [hkept _ htail]
      exact hfull hne
    · intro hmem
      exact absurd (hmade _ hmem) (Nat.lt_irrefl _)
    · dsimp only
      rw [Function.update_self, hkept _ htail]
      have hroom : least ≤ 2 ^ j - 1 := by omega
      exact ⟨hroom, newBlock_holds (by omega) _ _, rfl⟩

theorem Sound.linkBlock {n : ℕ} (h : Sound least maxSize s used free items)
    (henqueuing : s.enqueuing = some (call, .linkBlock n)) :
    Proceeds least maxSize (s.enqueueStep maxBlockSize allocates call (.linkBlock n)) := by
  obtain ⟨hheld, hfull, hnew, hmade, hleast, hholds, hnext⟩ := h.producing _ _ henqueuing
  obtain ⟨hlayout, hlength⟩ := h.layout_of_enqueuing henqueuing
  have hnot : n ∉ used := fun hused => hnew (List.mem_append_left _ hused)
  have htail : n ≠ s.queue.tailBlock := fun heq => hnot (heq ▸ hlayout.tailBlock_mem)
  have hkept : ∀ c ∈ used, Function.update items n [call.element] c = items c := by
    intro c hc
    refine Function.update_of_ne ?_ ..
    rintro rfl
    exact hnot hc
  have hlong : (used ++ (s.early ++ free)).length ≤ (used ++ ([n] ++ free)).length := by
    rw [hlength]
    simp [EnqueuePoint.early]
  refine Sound.proceeds (h.produce (hlayout.linkBlock hnew hmade hleast hholds hnext)
    (grows_modify ⟨rfl, rfl⟩ (fun c hc => (hkept c hc).symm ▸ List.prefix_rfl) fun c hc _ => hkept c hc)
    (flatMap_update hnot _) hlong h.largest hheld ⟨?_, Function.update_self ..⟩)
  intro hne
  rw [Queue.modify_tailBlock, Queue.modify_blocks_self, Function.update_of_ne htail.symm]
  exact hfull hne

theorem Sound.storeTailBlock {n : ℕ} (h : Sound least maxSize s used free items)
    (henqueuing : s.enqueuing = some (call, .storeTailBlock n)) :
    Proceeds least maxSize (s.enqueueStep maxBlockSize allocates call (.storeTailBlock n)) := by
  obtain ⟨-, hfull, hitems⟩ := h.producing _ _ henqueuing
  obtain ⟨hlayout, hlength⟩ := h.layout_of_enqueuing henqueuing
  have hfront := h.early_ne_frontBlock henqueuing n (List.mem_singleton_self n)
  have hgrows : Grows s.queue { s.queue with tailBlock := n } used (used ++ [n]) items items :=
    ⟨rfl, .inr hfront, List.prefix_append .., fun _ _ => ⟨rfl, rfl⟩, fun _ _ => List.prefix_rfl, fun _ _ _ => rfl⟩
  have hmoved := hlayout.storeTailBlock (hitems ▸ List.cons_ne_nil _ _) hfull
  refine Sound.proceeds (h.finishEnqueue hmoved hgrows ?_ ?_ h.largest fun hresult => nomatch hresult)
  · rw [List.flatMap_append, List.flatMap_singleton, hitems]
    rfl
  · rw [hlength, List.append_assoc]
    exact le_rfl

end Producer

section Consumer

variable {point : DequeuePoint α}

/-- The blocks as the consumer in a call sees them. -/
theorem Sound.layout_of_dequeuing (h : Sound least maxSize s used free items)
    (hdequeuing : s.dequeuing = some (held, point)) : Layout least s.queue point.taken used s.early free items := by
  have htaken : s.taken = point.taken := by
    unfold QueueState.taken
    rw [hdequeuing]
    rfl
  exact htaken ▸ h.layout

/-- The start of `try_dequeue` keeps the queue in order. -/
theorem Sound.tryDequeue (h : Sound least maxSize s used free items) (hidle : s.dequeuing = none) :
    InOrder least maxSize s.tryDequeue := by
  have htaken : s.taken = 0 := by
    unfold QueueState.taken
    rw [hidle]
    rfl
  have hlayout := h.layout
  rw [htaken] at hlayout
  unfold QueueState.tryDequeue
  dsimp only
  split
  · rename_i hahead
    exact ⟨used, free, items, h.consume hlayout Shrinks.refl rfl le_rfl rfl le_rfl hahead⟩
  · exact ⟨used, free, items, h.consume hlayout Shrinks.refl rfl le_rfl rfl le_rfl trivial⟩

/-- The copy of the tail of a block in use renewed. -/
theorem shrinks_readTail {q : Queue α} {b : ℕ} (hb : b ∈ used) :
    Shrinks q (q.modify b .readTail) used used free free items items :=
  shrinks_modify hb ⟨rfl, rfl, rfl, rfl⟩ rfl fun _ _ => rfl

theorem Sound.readTail (h : Sound least maxSize s used free items) (hdequeuing : s.dequeuing = some (held, .readTail)) :
    Proceeds least maxSize (s.dequeueStep held .readTail) := by
  obtain ⟨hheld, -⟩ := h.consuming _ _ hdequeuing
  have hlayout := h.layout_of_dequeuing hdequeuing
  have hmem := hlayout.frontBlock_mem
  have hholds := hlayout.holds _ (Layout.mem_ring hmem)
  have hread := hlayout.modify_same (f := .readTail) (Layout.mem_ring hmem) rfl rfl hholds.readTail (.inr rfl)
  unfold QueueState.dequeueStep
  dsimp only
  split
  · rename_i hne
    refine Sound.proceeds (h.consume hread (shrinks_readTail hmem) rfl le_rfl rfl hheld ?_)
    unfold Consuming
    rw [Queue.modify_frontBlock, Queue.modify_blocks_self]
    exact hne
  · rename_i heq
    have hempty := hholds.front_eq_tail.1 (not_not.1 heq)
    refine Sound.proceeds (h.consume hread (shrinks_readTail hmem) rfl le_rfl rfl hheld fun hsingle => ?_)
    have hcount := h.held_eq
    rw [hlayout.used_eq_singleton hsingle, List.flatMap_singleton, hempty, List.length_nil] at hcount
    exact Nat.le_zero.1 (hcount ▸ hheld)

theorem Sound.readTailBlock (h : Sound least maxSize s used free items)
    (hdequeuing : s.dequeuing = some (held, .readTailBlock)) :
    Proceeds least maxSize (s.dequeueStep held .readTailBlock) := by
  obtain ⟨hheld, hempty⟩ := h.consuming _ _ hdequeuing
  have hlayout := h.layout_of_dequeuing hdequeuing
  unfold QueueState.dequeueStep
  dsimp only
  split
  · rename_i hne
    exact Sound.proceeds (h.consume hlayout Shrinks.refl rfl le_rfl rfl hheld hne)
  · rename_i heq
    exact Sound.proceeds (h.finishDequeue hlayout Shrinks.refl (List.nil_append _).symm le_rfl rfl
      fun _ => hempty (not_not.1 heq))

theorem Sound.readTailAgain (h : Sound least maxSize s used free items)
    (hdequeuing : s.dequeuing = some (held, .readTailAgain)) :
    Proceeds least maxSize (s.dequeueStep held .readTailAgain) := by
  obtain ⟨hheld, hmoved⟩ := h.consuming _ _ hdequeuing
  have hlayout := h.layout_of_dequeuing hdequeuing
  have hmem := hlayout.frontBlock_mem
  have hholds := hlayout.holds _ (Layout.mem_ring hmem)
  have hread := hlayout.modify_same (f := .readTail) (Layout.mem_ring hmem) rfl rfl hholds.readTail (.inr rfl)
  unfold QueueState.dequeueStep
  dsimp only
  split
  · rename_i hne
    refine Sound.proceeds (h.consume hread (shrinks_readTail hmem) rfl le_rfl rfl hheld ?_)
    unfold Consuming
    rw [Queue.modify_frontBlock, Queue.modify_blocks_self]
    exact hne
  · rename_i heq
    have hempty := hholds.front_eq_tail.1 (not_not.1 heq)
    exact Sound.proceeds (h.consume hread (shrinks_readTail hmem) rfl le_rfl rfl hheld ⟨hmoved, hempty⟩)

theorem Sound.readNext (h : Sound least maxSize s used free items) (hdequeuing : s.dequeuing = some (held, .readNext)) :
    Proceeds least maxSize (s.dequeueStep held .readNext) := by
  obtain ⟨hheld, hmoved, hempty⟩ := h.consuming _ _ hdequeuing
  have hlayout := h.layout_of_dequeuing hdequeuing
  obtain ⟨n, rest, rfl⟩ := hlayout.used_eq_cons_cons hmoved
  unfold QueueState.dequeueStep
  simp only [hlayout.next_frontBlock]
  exact Sound.proceeds (h.consume hlayout Shrinks.refl rfl le_rfl rfl hheld ⟨hmoved, hempty, rest, rfl⟩)

theorem Sound.readNextTail {n : ℕ} (hleast : 1 ≤ least) (h : Sound least maxSize s used free items)
    (hdequeuing : s.dequeuing = some (held, .readNextTail n)) :
    Proceeds least maxSize (s.dequeueStep held (.readNextTail n)) := by
  obtain ⟨hheld, hmoved, hempty, rest, rfl⟩ := h.consuming _ _ hdequeuing
  have hlayout := h.layout_of_dequeuing hdequeuing
  have hused : n ∈ s.queue.frontBlock :: n :: rest := by simp
  have hmem : n ∈ (s.queue.frontBlock :: n :: rest) ++ (s.early ++ free) := Layout.mem_ring hused
  have hfront : n ≠ s.queue.frontBlock := by
    rintro rfl
    exact (List.nodup_cons.1 (List.nodup_append.1 hlayout.nodup).1).1 List.mem_cons_self
  have hholds := hlayout.holds n hmem
  have hread := hlayout.modify_same (f := .readTail) hmem rfl rfl hholds.readTail (.inr rfl)
  have hitems : items n ≠ [] := by
    rcases eq_or_ne n s.queue.tailBlock with rfl | htail
    · exact hlayout.nonempty hmoved
    · intro hnil
      have hfull := hlayout.full n hused hfront htail
      have hroom := hlayout.least n hmem
      rw [hnil, List.length_nil] at hfull
      omega
  have hne : (s.queue.blocks n).front ≠ (s.queue.blocks n).tail := fun heq => hitems (hholds.front_eq_tail.1 heq)
  unfold QueueState.dequeueStep
  dsimp only
  rw [if_pos hne]
  refine Sound.proceeds (h.consume hread (shrinks_readTail hused) rfl le_rfl rfl hheld ⟨hmoved, hempty, ⟨rest, rfl⟩, ?_⟩)
  rw [Queue.modify_blocks_self]
  exact hne

theorem Sound.storeFrontBlock {n : ℕ} (h : Sound least maxSize s used free items)
    (hdequeuing : s.dequeuing = some (held, .storeFrontBlock n)) :
    Proceeds least maxSize (s.dequeueStep held (.storeFrontBlock n)) := by
  obtain ⟨hheld, hmoved, hempty, ⟨rest, rfl⟩, hahead⟩ := h.consuming _ _ hdequeuing
  have hlayout := h.layout_of_dequeuing hdequeuing
  have hshrinks : Shrinks s.queue { s.queue with frontBlock := n } (s.queue.frontBlock :: n :: rest) (n :: rest) free
      (free ++ [s.queue.frontBlock]) items items := by
    refine ⟨rfl, .inr hmoved, rfl, List.prefix_append .., fun b hb => ?_, fun _ _ => rfl, fun _ => ⟨rfl, rfl, rfl, rfl⟩,
      fun _ _ => rfl, fun _ _ => rfl⟩
    rw [← List.append_assoc, List.mem_append, List.mem_singleton] at hb
    rw [List.cons_append, List.mem_cons]
    exact hb.symm
  refine Sound.proceeds (h.consume (hlayout.storeFrontBlock hempty) hshrinks ?_ ?_ rfl hheld hahead)
  · have hsplit : (s.queue.frontBlock :: n :: rest).flatMap items = items s.queue.frontBlock ++ (n :: rest).flatMap items :=
      List.flatMap_cons
    rw [hsplit, hempty, List.nil_append]
  · simp only [List.length_append, List.length_cons, List.length_nil]
    omega

theorem Sound.take (h : Sound least maxSize s used free items) (hdequeuing : s.dequeuing = some (held, .take)) :
    Proceeds least maxSize (s.dequeueStep held .take) := by
  obtain ⟨hheld, hahead⟩ := h.consuming _ _ hdequeuing
  have hlayout := h.layout_of_dequeuing hdequeuing
  have hmem := hlayout.frontBlock_mem
  have hholds := hlayout.holds _ (Layout.mem_ring hmem)
  obtain ⟨x, xs, hxs⟩ := List.exists_cons_of_ne_nil (hholds.ne_nil hahead)
  rw [if_pos rfl, hxs] at hholds
  have hdestroy : (s.queue.blocks s.queue.frontBlock).destroy.Holds
      (if s.queue.frontBlock = s.queue.frontBlock then 1 else 0) (items s.queue.frontBlock) := by
    rw [if_pos rfl, hxs]
    exact hholds.destroy
  have htaken := hlayout.modify_same (f := .destroy) (Layout.mem_ring hmem) rfl rfl hdestroy (.inl rfl)
  have hshrinks : Shrinks s.queue (s.queue.modify s.queue.frontBlock .destroy) used used free free items items :=
    shrinks_modify hmem ⟨rfl, rfl, rfl, rfl⟩ (hholds.destroy_data_tail (List.cons_ne_nil _ _)) fun _ _ => rfl
  unfold QueueState.dequeueStep
  simp only [hholds.data_front]
  refine Sound.proceeds (h.consume htaken hshrinks rfl le_rfl rfl hheld ?_)
  unfold Consuming
  rw [Queue.modify_frontBlock, Queue.modify_blocks_self]
  exact ⟨hahead, xs, hxs⟩

theorem Sound.storeFront {x : α} (h : Sound least maxSize s used free items)
    (hdequeuing : s.dequeuing = some (held, .storeFront x)) :
    Proceeds least maxSize (s.dequeueStep held (.storeFront x)) := by
  obtain ⟨-, hahead, xs, hxs⟩ := h.consuming _ _ hdequeuing
  have hlayout := h.layout_of_dequeuing hdequeuing
  have hmem := hlayout.frontBlock_mem
  have hholds := hlayout.holds _ (Layout.mem_ring hmem)
  rw [if_pos rfl, hxs] at hholds
  have hstore : (s.queue.blocks s.queue.frontBlock).storeFront.Holds
      (if s.queue.frontBlock = s.queue.frontBlock then 0 else 0) xs := by
    rw [ite_self]
    exact hholds.storeFront hahead
  have hnotFree : s.queue.frontBlock ∉ free := fun hfree =>
    List.disjoint_of_nodup_append hlayout.nodup hmem (List.mem_append_right _ hfree)
  have hstored := hlayout.modify (f := .storeFront) (Layout.mem_ring hmem) (.inl rfl) rfl rfl hstore
    (fun _ hne => absurd rfl hne) (fun _ hne => absurd rfl hne) (fun hfree => absurd hfree hnotFree)
  have hshrinks : Shrinks s.queue (s.queue.modify s.queue.frontBlock .storeFront) used used free free items
      (Function.update items s.queue.frontBlock xs) :=
    shrinks_modify hmem ⟨rfl, rfl, rfl, rfl⟩ rfl fun c hc => Function.update_of_ne hc ..
  refine Sound.proceeds (h.finishDequeue hstored hshrinks ?_ le_rfl rfl fun hresult => nomatch hresult)
  obtain ⟨rest, rfl⟩ := List.head?_eq_some_iff.1 hlayout.first
  have hnotRest : s.queue.frontBlock ∉ rest := (List.nodup_cons.1 (List.nodup_append.1 hlayout.nodup).1).1
  rw [List.flatMap_cons, List.flatMap_cons, flatMap_update hnotRest, Function.update_self, hxs]
  rfl

end Consumer

/-- Every step of the producer can be taken and keeps the queue in order. -/
theorem InOrder.enqueueStep (maxBlockSize : ℕ) (allocates : Bool) (hleast : 1 ≤ least) (h : InOrder least maxSize s) {point : EnqueuePoint}
    (henqueuing : s.enqueuing = some (call, point)) :
    Proceeds least maxSize (s.enqueueStep maxBlockSize allocates call point) := by
  obtain ⟨used, free, items, h⟩ := h
  cases point with
  | readFront => exact h.readFront henqueuing
  | construct => exact h.construct henqueuing
  | storeTail => exact h.storeTail henqueuing
  | readFrontBlock => exact h.readFrontBlock henqueuing
  | readNextFront => exact h.readNextFront hleast henqueuing
  | constructNext => exact h.constructNext henqueuing
  | storeNextTail => exact h.storeNextTail henqueuing
  | make => exact h.make hleast henqueuing
  | linkBlock n => exact h.linkBlock henqueuing
  | storeTailBlock n => exact h.storeTailBlock henqueuing

/-- Every step of the consumer can be taken and keeps the queue in order. -/
theorem InOrder.dequeueStep (hleast : 1 ≤ least) (h : InOrder least maxSize s) {point : DequeuePoint α}
    (hdequeuing : s.dequeuing = some (held, point)) : Proceeds least maxSize (s.dequeueStep held point) := by
  obtain ⟨used, free, items, h⟩ := h
  cases point with
  | readTail => exact h.readTail hdequeuing
  | readTailBlock => exact h.readTailBlock hdequeuing
  | readTailAgain => exact h.readTailAgain hdequeuing
  | readNext => exact h.readNext hdequeuing
  | readNextTail n => exact h.readNextTail hleast hdequeuing
  | storeFrontBlock n => exact h.storeFrontBlock hdequeuing
  | take => exact h.take hdequeuing
  | storeFront x => exact h.storeFront hdequeuing

/-- A thread that is not in a call can make one, and a thread that is can go on. -/
def Ready (s : QueueState α) : Action α → Prop
  | .enqueue _ _ => s.enqueuing = none
  | .producer _ => s.enqueuing ≠ none
  | .tryDequeue => s.dequeuing = none
  | .consumer => s.dequeuing ≠ none

/-- What a thread can do it does, and the queue stays in order. -/
theorem InOrder.proceeds (maxBlockSize : ℕ) (hleast : 1 ≤ least) (h : InOrder least maxSize s) {a : Action α} (hready : Ready s a) :
    Proceeds least maxSize (after maxBlockSize s a) := by
  cases a with
  | enqueue element mode =>
    obtain ⟨used, free, items, hsound⟩ := h
    unfold after
    dsimp only
    rw [if_pos (Option.isNone_iff_eq_none.2 hready)]
    exact ⟨_, rfl, hsound.innerEnqueue hready element mode⟩
  | producer allocates =>
    obtain ⟨⟨call, point⟩, henqueuing⟩ := Option.ne_none_iff_exists'.1 hready
    unfold after
    simp only [henqueuing]
    exact h.enqueueStep maxBlockSize allocates hleast henqueuing
  | tryDequeue =>
    obtain ⟨used, free, items, hsound⟩ := h
    unfold after
    dsimp only
    rw [if_pos (Option.isNone_iff_eq_none.2 hready)]
    exact ⟨_, rfl, hsound.tryDequeue hready⟩
  | consumer =>
    obtain ⟨⟨held, point⟩, hdequeuing⟩ := Option.ne_none_iff_exists'.1 hready
    unfold after
    simp only [hdequeuing]
    exact h.dequeueStep hleast hdequeuing

/-- A step that is not taken is one that its thread is not there for. -/
theorem after_of_not_ready {a : Action α} (hready : ¬ Ready s a) : after maxBlockSize s a = .error .idle := by
  unfold Ready at hready
  unfold after
  cases a with
  | enqueue element mode => exact if_neg fun hnone => hready (Option.isNone_iff_eq_none.1 hnone)
  | producer allocates =>
    dsimp only at hready ⊢
    rw [not_not.1 hready]
  | tryDequeue => exact if_neg fun hnone => hready (Option.isNone_iff_eq_none.1 hnone)
  | consumer =>
    dsimp only at hready ⊢
    rw [not_not.1 hready]

end Vpsim.Cosim.ReaderWriterQueue
