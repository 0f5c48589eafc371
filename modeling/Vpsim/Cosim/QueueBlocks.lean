import Vpsim.Cosim.ReaderWriterQueue
import Vpsim.Lib.CircularBuffer
import Mathlib.Data.List.Cycle

/-!
# The blocks of the queue between two threads

A block holds items from its front on, and the copies of its indices are behind what they copy by no more than it holds.
The blocks in use, from the front block to the tail block, hold the elements of the queue in order. Those behind them in
the circle are empty, but for one that the producer has filled and not yet reached.
-/

namespace Vpsim.Cosim.ReaderWriterQueue

open Vpsim.Lib

variable {α : Type}

/-- The items of a block, the first of which is destroyed if `taken` is one. -/
structure Block.Holds (b : Block α) (taken : ℕ) (items : List α) : Prop where
  size : ∃ k, b.sizeMask + 1 = 2 ^ k
  room : items.length ≤ b.sizeMask
  taken_le : taken ≤ items.length
  front_le : b.front ≤ b.sizeMask
  tail_eq : b.tail = (b.front + items.length) % (b.sizeMask + 1)
  localFront : b.localFront ≤ b.sizeMask ∧
    ∃ slack, slack + items.length ≤ b.sizeMask ∧ b.front = (b.localFront + slack) % (b.sizeMask + 1)
  localTail : ∃ lead ≤ items.length, b.localTail = (b.front + lead) % (b.sizeMask + 1)
  stored : Stored (b.sizeMask + 1) b.data ((b.front + taken) % (b.sizeMask + 1)) (items.drop taken)

namespace Block

variable {b : Block α} {taken i : ℕ} {items : List α} {x : α}

/-- With a power of two of places, the mask gives the remainder. -/
theorem after_eq (h : ∃ k, b.sizeMask + 1 = 2 ^ k) : b.after i = (i + 1) % (b.sizeMask + 1) := by
  obtain ⟨k, hk⟩ := h
  have hmask : b.sizeMask = 2 ^ k - 1 := by omega
  rw [after, hk, hmask, Nat.and_two_pow_sub_one_eq_mod]

namespace Holds

theorem front_mod (h : b.Holds taken items) : b.front % (b.sizeMask + 1) = b.front :=
  Nat.mod_eq_of_lt (Nat.lt_succ_of_le h.front_le)

/-- The place after the tail is the front moved on by one more than the items. -/
theorem after_tail (h : b.Holds taken items) :
    b.after b.tail = (b.front + (items.length + 1)) % (b.sizeMask + 1) := by
  rw [after_eq h.size, h.tail_eq, cell_succ]

/-- The place after the tail is the front of a full block only. -/
theorem after_tail_eq (h : b.Holds taken items) : b.after b.tail = b.front ↔ items.length = b.sizeMask := by
  have hroom := h.room
  rw [h.after_tail]
  constructor
  · intro hfront
    by_contra hne
    rw [cell_eq_front (Nat.lt_succ_of_le h.front_le) (by omega)] at hfront
    omega
  · intro hfull
    rw [hfull, Nat.add_mod_right, h.front_mod]

/-- There is room where the copy of the front says so, even if the front is still there. -/
theorem exists_slack (h : b.Holds taken items) (hne : b.after b.tail ≠ b.localFront) :
    ∃ slack, slack + items.length < b.sizeMask ∧ b.front = (b.localFront + slack) % (b.sizeMask + 1) := by
  obtain ⟨hle, slack, hslack, hfront⟩ := h.localFront
  refine ⟨slack, lt_of_le_of_ne hslack fun hfull => hne ?_, hfront⟩
  have hturn : slack + (items.length + 1) = b.sizeMask + 1 := by omega
  rw [h.after_tail, hfront, cell_add, hturn, Nat.add_mod_right, Nat.mod_eq_of_lt (Nat.lt_succ_of_le hle)]

/-- The front is the tail of an empty block only. -/
theorem front_eq_tail (h : b.Holds taken items) : b.front = b.tail ↔ items = [] := by
  have hroom := h.room
  rw [h.tail_eq, eq_comm, cell_eq_front (Nat.lt_succ_of_le h.front_le) (by omega), List.length_eq_zero_iff]

/-- There is an item where the copy of the tail says so. -/
theorem ne_nil (h : b.Holds taken items) (hne : b.front ≠ b.localTail) : items ≠ [] := by
  obtain ⟨lead, hlead, heq⟩ := h.localTail
  rintro rfl
  obtain rfl : lead = 0 := Nat.le_zero.1 hlead
  rw [Nat.add_zero, h.front_mod] at heq
  exact hne heq.symm

/-- Renewing the copy of the front leaves the items. -/
theorem readFront (h : b.Holds taken items) : b.readFront.Holds taken items :=
  ⟨h.size, h.room, h.taken_le, h.front_le, h.tail_eq, ⟨h.front_le, 0,
    (Nat.zero_add _).trans_le h.room, h.front_mod.symm⟩, h.localTail, h.stored⟩

/-- Renewing the copy of the tail leaves the items. -/
theorem readTail (h : b.Holds taken items) : b.readTail.Holds taken items :=
  ⟨h.size, h.room, h.taken_le, h.front_le, h.tail_eq, h.localFront, ⟨_, le_rfl, h.tail_eq⟩, h.stored⟩

/-- Constructing an element at the tail leaves the items. -/
theorem construct (h : b.Holds taken items) : (b.construct x).Holds taken items := by
  refine ⟨h.size, h.room, h.taken_le, h.front_le, h.tail_eq, h.localFront, h.localTail, ?_⟩
  have htaken := h.taken_le
  have htail : b.tail = ((b.front + taken) % (b.sizeMask + 1) + (items.length - taken)) % (b.sizeMask + 1) := by
    rw [cell_add, Nat.add_sub_cancel' htaken, h.tail_eq]
  have hlength : (items.drop taken).length ≤ items.length - taken := by rw [List.length_drop]
  have hroom := h.room
  unfold Block.construct
  rw [htail]
  exact h.stored.update hlength (by omega) _

/-- Moving the tail adds the element constructed there, if the copy of the front leaves room. -/
theorem storeTail (h : b.Holds taken items) (hne : b.after b.tail ≠ b.localFront) (hx : b.data b.tail = some x) :
    b.storeTail.Holds taken (items ++ [x]) := by
  obtain ⟨slack, hslack, hfront⟩ := h.exists_slack hne
  have hlength : (items ++ [x]).length = items.length + 1 := by rw [List.length_append, List.length_singleton]
  have htaken := h.taken_le
  have hroom : (items ++ [x]).length ≤ b.sizeMask := by omega
  have hroomSlack : slack + (items ++ [x]).length ≤ b.sizeMask := by omega
  refine ⟨h.size, hroom, by omega, h.front_le, ?_, ⟨h.localFront.1, slack, hroomSlack, hfront⟩, ?_, ?_⟩
  · rw [hlength]
    exact h.after_tail
  · obtain ⟨lead, hlead, heq⟩ := h.localTail
    exact ⟨lead, by omega, heq⟩
  · rw [List.drop_append_of_le_length htaken]
    refine h.stored.append ?_
    rw [cell_add, List.length_drop, Nat.add_sub_cancel' htaken]
    exact h.tail_eq ▸ hx

/-- An empty block of two places or more, with the copy of its front renewed, has room. -/
theorem after_tail_ne (h : b.Holds taken []) (hmask : 1 ≤ b.sizeMask) : b.readFront.after b.readFront.tail ≠ b.readFront.localFront := by
  intro heq
  have hfull := h.after_tail_eq.1 heq
  rw [List.length_nil] at hfull
  omega

theorem stored_front (h : b.Holds 0 items) : Stored (b.sizeMask + 1) b.data b.front items := by
  have hfront : (b.front + 0) % (b.sizeMask + 1) = b.front := h.front_mod
  have hstored := h.stored
  rwa [hfront, List.drop_zero] at hstored

/-- The front holds the first item. -/
theorem data_front (h : b.Holds 0 (x :: items)) : b.data b.front = some x :=
  h.stored_front.head (Nat.lt_succ_of_le h.front_le)

/-- Destroying the first item takes its value, and the item still occupies its place. -/
theorem destroy (h : b.Holds 0 (x :: items)) : b.destroy.Holds 1 (x :: items) := by
  have hroom := h.room
  rw [List.length_cons] at hroom
  refine ⟨h.size, h.room, Nat.succ_le_of_lt (Nat.succ_pos _), h.front_le, h.tail_eq, h.localFront, h.localTail, ?_⟩
  have hfront : b.front = ((b.front + 1) % (b.sizeMask + 1) + b.sizeMask) % (b.sizeMask + 1) := by
    rw [cell_add, Nat.add_comm 1, Nat.add_mod_right, h.front_mod]
  have hupdate := h.stored_front.tail.update (show items.length ≤ b.sizeMask by omega) (Nat.lt_succ_self _) none
  rwa [← hfront] at hupdate

/-- The place at the tail is not the one that is destroyed. -/
theorem destroy_data_tail (h : b.Holds taken items) (hitems : items ≠ []) : b.destroy.data b.tail = b.data b.tail := by
  refine Function.update_of_ne (fun heq => hitems ?_) _ _
  exact h.front_eq_tail.1 heq.symm

/-- Moving the front removes the first item, if the copy of the tail is past it. -/
theorem storeFront (h : b.Holds 1 (x :: items)) (hne : b.front ≠ b.localTail) : b.storeFront.Holds 0 items := by
  have hroom := h.room
  rw [List.length_cons] at hroom
  have hafter : b.storeFront.front = (b.front + 1) % (b.sizeMask + 1) := after_eq h.size
  have hmod : (b.front + 1) % (b.sizeMask + 1) < b.sizeMask + 1 := Nat.mod_lt _ (Nat.succ_pos _)
  refine ⟨h.size, Nat.le_of_succ_le hroom, Nat.zero_le _, ?_, ?_, ⟨h.localFront.1, ?_⟩, ?_, ?_⟩
  · rw [hafter]
    exact Nat.le_of_lt_succ hmod
  · rw [hafter]
    refine h.tail_eq.trans ?_
    rw [List.length_cons]
    exact (cell_add.trans (by rw [Nat.add_comm 1])).symm
  · obtain ⟨-, slack, hslack, hfront⟩ := h.localFront
    rw [List.length_cons] at hslack
    refine ⟨slack + 1, by change _ ≤ b.sizeMask; omega, ?_⟩
    rw [hafter]
    nth_rewrite 1 [hfront]
    exact cell_succ
  · obtain ⟨lead, hlead, heq⟩ := h.localTail
    have hpos : lead ≠ 0 := by
      rintro rfl
      rw [Nat.add_zero, h.front_mod] at heq
      exact hne heq.symm
    rw [List.length_cons] at hlead
    refine ⟨lead - 1, by omega, ?_⟩
    rw [hafter]
    refine heq.trans ?_
    exact (cell_add.trans (by rw [Nat.add_sub_cancel' (Nat.one_le_iff_ne_zero.2 hpos)])).symm
  · rw [hafter, Nat.add_zero]
    refine Eq.mp ?_ h.stored
    exact congrArg (fun front => Stored (b.sizeMask + 1) b.data front items) (Nat.mod_mod _ _).symm

end Holds

/-- A new block is empty. -/
theorem makeBlock_holds {k : ℕ} : (makeBlock (2 ^ k) : Block α).Holds 0 [] := by
  have hpos : 0 < 2 ^ k := Nat.pow_pos (by omega)
  refine ⟨⟨k, Nat.sub_add_cancel hpos⟩, Nat.zero_le _, le_rfl, Nat.zero_le _, rfl, ⟨Nat.zero_le _, 0, Nat.zero_le _, rfl⟩,
    ⟨0, le_rfl, rfl⟩, .nil⟩

end Block

/-- In a circle, a block leads to the one after it. -/
theorem next_of_circle {next : ℕ → Option ℕ} {l r : List ℕ} {b c : ℕ}
    (h : Cycle.Chain (fun b c => next b = some c) (l ++ b :: c :: r : List ℕ)) : next b = some c := by
  have hrotated : ((l ++ b :: c :: r : List ℕ) : Cycle ℕ) = (b :: c :: r ++ l : List ℕ) :=
    Cycle.coe_eq_coe.2 List.isRotated_append
  rw [hrotated, List.cons_append, List.cons_append, Cycle.chain_coe_cons] at h
  exact (List.isChain_cons_cons.1 h).1

/-- In a circle, the last block leads to the first. -/
theorem next_last_of_circle {next : ℕ → Option ℕ} {l : List ℕ} {b c : ℕ}
    (h : Cycle.Chain (fun b c => next b = some c) (l : Cycle ℕ)) (hfirst : l.head? = some c)
    (hlast : l.getLast? = some b) : next b = some c := by
  obtain ⟨l, rfl⟩ := List.head?_eq_some_iff.1 hfirst
  rw [Cycle.chain_coe_cons, ← List.cons_append, List.isChain_append] at h
  exact h.2.2 b hlast c rfl

/-- A circle depends on where its blocks lead. -/
theorem circle_congr {next next' : ℕ → Option ℕ} {l : List ℕ}
    (h : Cycle.Chain (fun b c => next b = some c) (l : Cycle ℕ)) (hnext : ∀ b ∈ l, next' b = next b) :
    Cycle.Chain (fun b c => next' b = some c) (l : Cycle ℕ) := by
  cases l with
  | nil => exact Cycle.Chain.nil _
  | cons a l =>
    rw [Cycle.chain_coe_cons] at h ⊢
    refine h.imp_of_mem_imp fun b c hb _ hbc => ?_
    rw [← List.cons_append, List.mem_append, List.mem_singleton] at hb
    have hmem : b ∈ a :: l := hb.elim id fun heq => heq ▸ List.mem_cons_self
    rwa [hnext b hmem]

/-- A block that is put after another in a circle makes a circle with one more block. -/
theorem circle_insert {next next' : ℕ → Option ℕ} {l r : List ℕ} {t n : ℕ}
    (h : Cycle.Chain (fun b c => next b = some c) (l ++ t :: r : List ℕ))
    (hnext : next' t = some n) (hnew : next' n = next t) (hrest : ∀ b ∈ l ++ r, next' b = next b) :
    Cycle.Chain (fun b c => next' b = some c) (l ++ t :: n :: r : List ℕ) := by
  have hrotated (m : List ℕ) : ((l ++ t :: m : List ℕ) : Cycle ℕ) = (t :: (m ++ l) : List ℕ) :=
    Cycle.coe_eq_coe.2 List.isRotated_append
  rw [hrotated, Cycle.chain_coe_cons, List.isChain_cons, List.isChain_append] at h
  obtain ⟨hfirst, hchain, -, hlink⟩ := h
  have hmem (b : ℕ) (hb : b ∈ r ++ l) : next' b = next b := hrest b (List.mem_append.2 (List.mem_append.1 hb).symm)
  rw [hrotated, Cycle.chain_coe_cons, List.cons_append, List.cons_append, List.isChain_cons_cons, List.isChain_cons,
    List.isChain_append]
  refine ⟨hnext, fun b hb => hnew.trans (hfirst b hb), ?_, List.isChain_singleton _, ?_⟩
  · refine hchain.imp_of_mem_imp fun b c hb _ hbc => ?_
    rwa [hmem b hb]
  · intro b hb c hc
    rw [hmem b (List.mem_of_getLast? hb)]
    exact hlink b hb c hc

/-- The blocks from the front block to the tail block, the one that the producer is about to reach, and the others, with
the items of each. Each block has room for `least` elements. -/
structure Layout (least : ℕ) (q : Queue α) (taken : ℕ) (used early free : List ℕ) (items : ℕ → List α) : Prop where
  first : used.head? = some q.frontBlock
  last : used.getLast? = some q.tailBlock
  nodup : (used ++ (early ++ free)).Nodup
  circle : Cycle.Chain (fun b c => (q.blocks b).next = some c) (used ++ (early ++ free) : List ℕ)
  made : ∀ b ∈ used ++ (early ++ free), b < q.made
  least : ∀ b ∈ used ++ (early ++ free), least ≤ (q.blocks b).sizeMask
  holds : ∀ b ∈ used ++ (early ++ free), (q.blocks b).Holds (if b = q.frontBlock then taken else 0) (items b)
  full : ∀ b ∈ used, b ≠ q.frontBlock → b ≠ q.tailBlock → (items b).length = (q.blocks b).sizeMask
  nonempty : q.frontBlock ≠ q.tailBlock → items q.tailBlock ≠ []
  empty : ∀ b ∈ free, items b = []

@[simp] theorem Queue.modify_frontBlock (i : ℕ) (f : Block α → Block α) (q : Queue α) :
    (q.modify i f).frontBlock = q.frontBlock := rfl
@[simp] theorem Queue.modify_tailBlock (i : ℕ) (f : Block α → Block α) (q : Queue α) :
    (q.modify i f).tailBlock = q.tailBlock := rfl
@[simp] theorem Queue.modify_made (i : ℕ) (f : Block α → Block α) (q : Queue α) : (q.modify i f).made = q.made := rfl
@[simp] theorem Queue.modify_largestBlockSize (i : ℕ) (f : Block α → Block α) (q : Queue α) :
    (q.modify i f).largestBlockSize = q.largestBlockSize := rfl
@[simp] theorem Queue.modify_blocks_self (i : ℕ) (f : Block α → Block α) (q : Queue α) :
    (q.modify i f).blocks i = f (q.blocks i) := Function.update_self ..
theorem Queue.modify_blocks_of_ne {i j : ℕ} (h : j ≠ i) (f : Block α → Block α) (q : Queue α) :
    (q.modify i f).blocks j = q.blocks j := Function.update_of_ne h ..

namespace Layout

variable {least : ℕ} {q : Queue α} {taken taken' : ℕ} {used early free : List ℕ} {items : ℕ → List α} {b n : ℕ}
  {f : Block α → Block α} {xs : List α}

theorem frontBlock_mem (h : Layout least q taken used early free items) : q.frontBlock ∈ used :=
  List.mem_of_mem_head? h.first

theorem tailBlock_mem (h : Layout least q taken used early free items) : q.tailBlock ∈ used :=
  List.mem_of_mem_getLast? h.last

theorem mem_ring (hb : b ∈ used) : b ∈ used ++ (early ++ free) := List.mem_append_left _ hb

/-- With one block in use, it is the only one. -/
theorem used_eq_singleton (h : Layout least q taken used early free items) (heq : q.frontBlock = q.tailBlock) :
    used = [q.frontBlock] := by
  obtain ⟨rest, rfl⟩ := List.head?_eq_some_iff.1 h.first
  cases rest with
  | nil => rfl
  | cons c rest =>
    have hlast := h.last
    rw [List.getLast?_cons_cons, ← heq] at hlast
    have hnot := (List.nodup_cons.1 (List.nodup_append.1 h.nodup).1).1
    exact absurd (List.mem_of_getLast? hlast) hnot

/-- With several blocks in use, one follows the front block. -/
theorem used_eq_cons_cons (h : Layout least q taken used early free items) (hne : q.frontBlock ≠ q.tailBlock) :
    ∃ n rest, used = q.frontBlock :: n :: rest := by
  obtain ⟨rest, rfl⟩ := List.head?_eq_some_iff.1 h.first
  cases rest with
  | nil =>
    have hlast := h.last
    rw [List.getLast?_singleton, Option.some_inj] at hlast
    exact absurd hlast hne
  | cons n rest => exact ⟨n, rest, rfl⟩

/-- The tail block leads to the block behind it. -/
theorem next_tailBlock (h : Layout least q taken used early (n :: free) items) (hearly : early = []) :
    (q.blocks q.tailBlock).next = some n := by
  subst hearly
  obtain ⟨init, hinit⟩ := List.getLast?_eq_some_iff.1 h.last
  have hcircle := h.circle
  rw [hinit, List.append_assoc] at hcircle
  exact next_of_circle hcircle

/-- With all blocks in use, the tail block leads to the front block. -/
theorem next_tailBlock_of_nil (h : Layout least q taken used [] [] items) :
    (q.blocks q.tailBlock).next = some q.frontBlock := by
  have hcircle := h.circle
  rw [List.append_nil, List.append_nil] at hcircle
  exact next_last_of_circle hcircle h.first h.last

/-- The front block leads to the next in use. -/
theorem next_frontBlock {rest : List ℕ} (h : Layout least q taken (q.frontBlock :: n :: rest) early free items) :
    (q.blocks q.frontBlock).next = some n := by
  have hcircle := h.circle
  exact next_of_circle (l := []) hcircle

/-- A block may change what it holds if it keeps its place in the circle. -/
theorem modify (h : Layout least q taken used early free items) (hb : b ∈ used ++ (early ++ free))
    (htaken : b = q.frontBlock ∨ taken' = taken) (hnext : (f (q.blocks b)).next = (q.blocks b).next)
    (hmask : (f (q.blocks b)).sizeMask = (q.blocks b).sizeMask)
    (hholds : (f (q.blocks b)).Holds (if b = q.frontBlock then taken' else 0) xs)
    (hfull : b ∈ used → b ≠ q.frontBlock → b ≠ q.tailBlock → xs.length = (q.blocks b).sizeMask)
    (hnonempty : b = q.tailBlock → b ≠ q.frontBlock → xs ≠ []) (hempty : b ∈ free → xs = []) :
    Layout least (q.modify b f) taken' used early free (Function.update items b xs) := by
  have hsame (c : ℕ) : ((q.modify b f).blocks c).next = (q.blocks c).next ∧
      ((q.modify b f).blocks c).sizeMask = (q.blocks c).sizeMask := by
    rcases eq_or_ne c b with rfl | hne
    · rw [Queue.modify_blocks_self]
      exact ⟨hnext, hmask⟩
    · rw [Queue.modify_blocks_of_ne hne]
      exact ⟨rfl, rfl⟩
  refine ⟨h.first, h.last, h.nodup, ?_, h.made, ?_, ?_, ?_, ?_, ?_⟩
  · simp only [hsame]
    exact h.circle
  · intro c hc
    rw [(hsame c).2]
    exact h.least c hc
  · intro c hc
    rcases eq_or_ne c b with rfl | hne
    · rw [Queue.modify_blocks_self, Function.update_self]
      exact hholds
    · rw [Queue.modify_blocks_of_ne hne, Function.update_of_ne hne]
      have hold := h.holds c hc
      rcases htaken with hfront | rfl
      · have hcf : c ≠ q.frontBlock := hfront ▸ hne
        rw [if_neg hcf] at hold
        rwa [Queue.modify_frontBlock, if_neg hcf]
      · exact hold
  · intro c hc hcf hct
    rw [(hsame c).2]
    rcases eq_or_ne c b with rfl | hne
    · rw [Function.update_self]
      exact hfull hc hcf hct
    · rw [Function.update_of_ne hne]
      exact h.full c hc hcf hct
  · intro hft
    rw [Queue.modify_tailBlock]
    rcases eq_or_ne q.tailBlock b with heq | hne
    · subst heq
      rw [Function.update_self]
      exact hnonempty rfl hft.symm
    · rw [Function.update_of_ne hne]
      exact h.nonempty hft
  · intro c hc
    rcases eq_or_ne c b with rfl | hne
    · rw [Function.update_self]
      exact hempty hc
    · rw [Function.update_of_ne hne]
      exact h.empty c hc

/-- A block may change what is not its items. -/
theorem modify_same (h : Layout least q taken used early free items) (hb : b ∈ used ++ (early ++ free))
    (hnext : (f (q.blocks b)).next = (q.blocks b).next) (hmask : (f (q.blocks b)).sizeMask = (q.blocks b).sizeMask)
    (hholds : (f (q.blocks b)).Holds (if b = q.frontBlock then taken' else 0) (items b))
    (htaken : b = q.frontBlock ∨ taken' = taken) :
    Layout least (q.modify b f) taken' used early free items := by
  have hlayout := h.modify hb htaken hnext hmask hholds (h.full b) (fun hbt hne => ?_) (h.empty b)
  · rwa [Function.update_eq_self] at hlayout
  · subst hbt
    exact h.nonempty hne.symm

/-- The tail block may move on to the block that was filled early. -/
theorem storeTailBlock (h : Layout least q taken used [n] free items) (hitems : items n ≠ [])
    (hfull : q.tailBlock ≠ q.frontBlock → (items q.tailBlock).length = (q.blocks q.tailBlock).sizeMask) :
    Layout least { q with tailBlock := n } taken (used ++ [n]) [] free items := by
  have hring : used ++ [n] ++ ([] ++ free) = used ++ ([n] ++ free) := by
    rw [List.nil_append, List.append_assoc]
  refine ⟨?_, List.getLast?_concat, hring ▸ h.nodup, hring ▸ h.circle, hring ▸ h.made, hring ▸ h.least, hring ▸ h.holds,
    ?_, fun _ => hitems, h.empty⟩
  · rw [List.head?_append, h.first, Option.some_or]
  · intro c hc hcf hcn
    rcases List.mem_append.1 hc with hc | hc
    · rcases eq_or_ne c q.tailBlock with rfl | hct
      · exact hfull hcf
      · exact h.full c hc hcf hct
    · exact absurd (List.mem_singleton.1 hc) hcn

/-- The blocks of the circle are as they were. -/
theorem congr {q' : Queue α} (h : Layout least q taken used early free items)
    (hblocks : ∀ b ∈ used ++ (early ++ free), q'.blocks b = q.blocks b) (hfront : q'.frontBlock = q.frontBlock)
    (htail : q'.tailBlock = q.tailBlock) (hmade : q.made ≤ q'.made) : Layout least q' taken used early free items := by
  refine ⟨hfront ▸ h.first, htail ▸ h.last, h.nodup, circle_congr h.circle fun b hb => by rw [hblocks b hb],
    fun b hb => (h.made b hb).trans_le hmade, fun b hb => ?_, fun b hb => ?_, fun b hb => ?_, ?_, h.empty⟩
  · rw [hblocks b hb]
    exact h.least b hb
  · rw [hblocks b hb, hfront]
    exact h.holds b hb
  · rw [hblocks b (mem_ring hb), hfront, htail]
    exact h.full b hb
  · rw [hfront, htail]
    exact h.nonempty

/-- A new block may be linked in behind the tail block. -/
theorem linkBlock (h : Layout least q taken used [] free items) (hnew : n ∉ used ++ ([] ++ free)) (hmade : n < q.made)
    (hleast : least ≤ (q.blocks n).sizeMask) (hholds : (q.blocks n).Holds 0 xs)
    (hnext : (q.blocks n).next = (q.blocks q.tailBlock).next) :
    Layout least (q.modify q.tailBlock fun block => { block with next := some n }) taken used [n] free
      (Function.update items n xs) := by
  have hmem (c : ℕ) (hc : c ∈ used ++ ([n] ++ free)) (hne : c ≠ n) : c ∈ used ++ ([] ++ free) := by
    simp only [List.mem_append, List.mem_singleton] at hc ⊢
    exact hc.imp id fun hc => .inr (hc.resolve_left hne)
  have hused (c : ℕ) (hc : c ∈ used) : c ≠ n := by
    rintro rfl
    exact hnew (mem_ring hc)
  have htail : q.tailBlock ≠ n := hused _ h.tailBlock_mem
  have hblock (c : ℕ) : ∃ next, (q.modify q.tailBlock fun block => { block with next := some n }).blocks c =
      { q.blocks c with next := next } := by
    rcases eq_or_ne c q.tailBlock with rfl | hne
    · exact ⟨some n, Queue.modify_blocks_self ..⟩
    · exact ⟨(q.blocks c).next, Queue.modify_blocks_of_ne hne ..⟩
  have hmask (c : ℕ) : ((q.modify q.tailBlock fun block => { block with next := some n }).blocks c).sizeMask =
      (q.blocks c).sizeMask := by
    obtain ⟨next, hnext⟩ := hblock c
    rw [hnext]
  refine ⟨h.first, h.last, ?_, ?_, ?_, ?_, ?_, ?_, ?_, ?_⟩
  · rw [List.singleton_append, List.nodup_middle]
    exact List.nodup_cons.2 ⟨hnew, h.nodup⟩
  · obtain ⟨init, hinit⟩ := List.getLast?_eq_some_iff.1 h.last
    have hcircle := h.circle
    have hnodup := h.nodup
    rw [hinit, List.append_assoc] at hcircle hnodup
    rw [hinit, List.append_assoc]
    refine circle_insert hcircle ?_ ?_ fun c hc => ?_
    · rw [Queue.modify_blocks_self]
    · rw [Queue.modify_blocks_of_ne htail.symm]
      exact hnext
    · rw [Queue.modify_blocks_of_ne]
      rintro rfl
      exact (List.nodup_cons.1 (List.nodup_middle.1 hnodup)).1 hc
  · intro c hc
    rcases eq_or_ne c n with rfl | hne
    · exact hmade
    · exact h.made c (hmem c hc hne)
  · intro c hc
    rw [hmask]
    rcases eq_or_ne c n with rfl | hne
    · exact hleast
    · exact h.least c (hmem c hc hne)
  · intro c hc
    obtain ⟨next, hblockNext⟩ := hblock c
    rw [hblockNext]
    have hkept : (q.blocks c).Holds (if c = q.frontBlock then taken else 0) (Function.update items n xs c) := by
      rcases eq_or_ne c n with rfl | hne
      · rw [Function.update_self, if_neg (hused _ h.frontBlock_mem).symm]
        exact hholds
      · rw [Function.update_of_ne hne]
        exact h.holds c (hmem c hc hne)
    exact ⟨hkept.size, hkept.room, hkept.taken_le, hkept.front_le, hkept.tail_eq, hkept.localFront, hkept.localTail,
      hkept.stored⟩
  · intro c hc hcf hct
    rw [hmask, Function.update_of_ne (hused c hc)]
    exact h.full c hc hcf hct
  · intro hne
    rw [Queue.modify_tailBlock, Function.update_of_ne htail]
    exact h.nonempty hne
  · intro c hc
    rw [Function.update_of_ne]
    · exact h.empty c hc
    · rintro rfl
      exact hnew (List.mem_append_right _ hc)

/-- The front block may move on when it is empty. -/
theorem storeFrontBlock {rest : List ℕ} (h : Layout least q 0 (q.frontBlock :: n :: rest) early free items)
    (hitems : items q.frontBlock = []) :
    Layout least { q with frontBlock := n } 0 (n :: rest) early (free ++ [q.frontBlock]) items := by
  have hperm : (n :: rest) ++ (early ++ (free ++ [q.frontBlock])) = ((n :: rest) ++ (early ++ free)) ++ [q.frontBlock] := by
    simp only [List.append_assoc]
  have hmem (c : ℕ) (hc : c ∈ (n :: rest) ++ (early ++ (free ++ [q.frontBlock]))) :
      c ∈ (q.frontBlock :: n :: rest) ++ (early ++ free) := by
    rw [hperm, List.mem_append, List.mem_singleton] at hc
    rw [List.cons_append, List.mem_cons]
    exact hc.symm
  have hlast := h.last
  rw [List.getLast?_cons_cons] at hlast
  have hnodup := h.nodup
  rw [List.cons_append, List.nodup_cons] at hnodup
  refine ⟨rfl, hlast, ?_, ?_, fun c hc => h.made c (hmem c hc), fun c hc => h.least c (hmem c hc), fun c hc => ?_, ?_, ?_, ?_⟩
  · rw [hperm, List.nodup_append_comm]
    exact List.nodup_cons.2 hnodup
  · rw [hperm, ← Cycle.coe_cons_eq_coe_append]
    exact h.circle
  · have hholds := h.holds c (hmem c hc)
    rw [ite_self] at hholds
    rwa [ite_self]
  · intro c hc hcn hct
    refine h.full c (List.mem_cons_of_mem _ hc) ?_ hct
    rintro rfl
    exact hnodup.1 (List.mem_append_left _ hc)
  · intro hne
    refine h.nonempty ?_
    rintro heq
    have hmemTail := List.mem_of_getLast? hlast
    exact hnodup.1 (List.mem_append_left _ (heq ▸ hmemTail))
  · intro c hc
    rcases List.mem_append.1 hc with hc | hc
    · exact h.empty c hc
    · rw [List.mem_singleton.1 hc]
      exact hitems

end Layout

end Vpsim.Cosim.ReaderWriterQueue
