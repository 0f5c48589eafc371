import Vpsim.Connect.NocTopology
import Vpsim.Lib.Distance
import Vpsim.Lib.PriorityQueue
import Vpsim.Lib.Run
import Mathlib.Data.Finset.Card
import Mathlib.Data.List.Chain

/-!
# Shortest paths

`dijkstra` searches from a source until a destination is at the top of the queue, and reads the path backwards from the
parents. All links cost 1, and distances are `float`: from `2 ^ 24` on a distance and 1 add up to the distance. Ids of
routers are `int` where they index a vector, so those from `2 ^ 31` on are negative. The loop over the links of a router
counts in 32 bits.

Which of several entries with the least distance the queue gives is left open.
-/

namespace Vpsim.Connect

open Vpsim.Lib

/-- Why a call does not come back: a loop goes on after the given rounds, or a vector is accessed outside of it. -/
inductive Stop where
  | rounds
  | outside

/-- From this distance on, `float` does not tell a distance from the next one. -/
def floatReach : ℕ := 2 ^ 24

/-- A distance and the cost of a link. -/
def addCost (d : ℕ) : ℕ := if d < floatReach then d + 1 else d

/-- Ids below are indices also as `int`. -/
def intIds : ℕ := 2 ^ 31

/-- `Graph`: the destinations of the links of each router. -/
structure Graph where
  size : ℕ
  out : ℕ → List ℕ

/-- `for(unsigned int i = 0; i < l.size(); i++)`. -/
def forUnsigned {α σ : Type} (body : α → EStateM Stop σ PUnit) (l : List α) (rounds : ℕ) : EStateM Stop σ PUnit :=
  loop (fun i =>
    match l[i]? with
    | none => return none
    | some a => do
      body a
      return some ((i + 1) % portIds)) .rounds rounds 0

/-- The variables of `dijkstra`. A distance that is not there is the largest `float`, a parent that is not there is -1. -/
structure Search (q : PriorityQueue (ℕ × ℕ) Prod.snd) where
  d : ℕ → Option ℕ
  parent : ℕ → Option ℕ
  queue : q.Carrier

section Program

variable (q : PriorityQueue (ℕ × ℕ) Prod.snd)

/-- The distance `u` and a link is less than what is known of `v`. -/
def improves (dv : Option ℕ) (du : ℕ) : Bool :=
  match dv with
  | none => true
  | some k => addCost du < k

/-- The loop body for a link from `u` to `v`. -/
def relax (size u v : ℕ) : EStateM Stop (Search q) PUnit := do
  if v < intIds ∧ v < size then
    modify fun s =>
      match s.d u with
      | none => s
      | some k =>
        if improves (s.d v) k then
          { s with
            d := Function.update s.d v (some (addCost k))
            parent := Function.update s.parent v (some u)
            queue := q.push (v, addCost k) s.queue }
        else s
  else throw .outside

/-- A round of the search. -/
def searchRound (g : Graph) (destination rounds : ℕ) (_ : PUnit) : EStateM Stop (Search q) (Option PUnit) := do
  match q.top (← get).queue with
  | none => return none
  | some (u, _) =>
    if u = destination then return none
    else
      modify fun s => { s with queue := q.pop s.queue }
      forUnsigned (relax q g.size u) (g.out u) rounds
      return some ⟨⟩

/-- The variables before the search. -/
def searchFrom (source : ℕ) : Search q where
  d := Function.update (fun _ => none) source (some 0)
  parent _ := none
  queue := q.push (source, 0) q.empty

/-- The path from a router back to the source. -/
def walkBack (size : ℕ) (parent : ℕ → Option ℕ) (source : ℕ) : ℕ → ℕ → Except Stop (List ℕ)
  | 0, _ => .error .rounds
  | rounds + 1, p =>
    if p = source then .ok [p]
    else if p < intIds ∧ p < size then
      match parent p with
      | none => .error .outside
      | some p' => (walkBack size parent source rounds p').map (p :: ·)
    else .error .outside

/-- `dijkstra`. -/
def dijkstra (g : Graph) (rounds source destination : ℕ) : Except Stop (List ℕ) :=
  -- the loop that fills the vectors counts in 32 bits
  if portIds ≤ g.size then .error .rounds
  else if source < intIds ∧ source < g.size then
    match loop (searchRound q g destination rounds) .rounds rounds ⟨⟩ (searchFrom q source) with
    | .error e _ => .error e
    | .ok _ s => walkBack g.size s.parent source rounds destination
  else .error .outside

end Program

section ForUnsigned

variable {α σ : Type} {body : α → EStateM Stop σ PUnit} {l : List α}

/-- A loop that returns has a size of 32 bits, and keeps what its rounds keep. -/
theorem wp_forUnsigned {Inv : σ → Prop} {E : Stop → σ → Prop} (hbody : ∀ a ∈ l, ∀ s, Inv s →
    wp (body a) (fun _ => Inv) E s) (hstop : ∀ s, E .rounds s) (rounds : ℕ) {s : σ} (hs : Inv s) :
    wp (forUnsigned body l rounds) (fun _ s => Inv s ∧ l.length < portIds) E s := by
  refine wp_loop (fun s i => Inv s ∧ i < portIds) (fun s i hs => ?_) hstop rounds ⟨hs, by decide⟩
  cases ha : l[i]? with
  | none => exact ⟨fun _ => ⟨hs.1, Nat.lt_of_le_of_lt (List.getElem?_eq_none_iff.mp ha) hs.2⟩, nofun⟩
  | some a =>
    refine (hbody a (List.mem_of_getElem? ha) s hs.1).bind fun _ t ht => ⟨nofun, fun y hy => ?_⟩
    cases hy
    exact ⟨ht, Nat.mod_lt _ (by decide)⟩

/-- A loop over fewer than `2 ^ 32` elements, with an invariant that follows the rest of them. -/
theorem wp_forUnsigned_of_lt {E : Stop → σ → Prop} (Inv : List α → σ → Prop)
    (hbody : ∀ a rest s, Inv (a :: rest) s → wp (body a) (fun _ => Inv rest) E s) (hsize : l.length < portIds)
    {rounds : ℕ} (hrounds : l.length < rounds) {s : σ} (hs : Inv l s) :
    wp (forUnsigned body l rounds) (fun _ => Inv []) E s := by
  refine wp_loop_of_lt (fun s i => i ≤ l.length ∧ Inv (l.drop i) s) (fun _ i => l.length - i) (fun s i hs => ?_)
    (by omega) ⟨Nat.zero_le _, hs⟩
  cases ha : l[i]? with
  | none =>
    refine ⟨fun _ => ?_, nofun⟩
    have hinv := hs.2
    rw [List.drop_eq_nil_of_le (List.getElem?_eq_none_iff.mp ha)] at hinv
    exact hinv
  | some a =>
    obtain ⟨hi, hget⟩ := List.getElem?_eq_some_iff.mp ha
    have hinv := hs.2
    rw [List.drop_eq_getElem_cons hi, hget] at hinv
    refine (hbody a _ s hinv).bind fun _ t ht => ⟨nofun, fun y hy => ?_⟩
    cases hy
    rw [Nat.mod_eq_of_lt (Nat.lt_of_le_of_lt hi hsize)]
    exact ⟨⟨hi, ht⟩, by omega⟩

end ForUnsigned

/-- There is a link. -/
def Graph.edge (g : Graph) (u v : ℕ) : Prop := v ∈ g.out u

/-- What a search knows. All routers with `rest` apart, what is not in the queue any more has led to its neighbours; and
where distances are not told apart, only those of at least that distance are found. -/
structure Searched {q : PriorityQueue (ℕ × ℕ) Prod.snd} (g : Graph) (source u : ℕ) (rest : List ℕ) (s : Search q) :
    Prop where
  start : s.d source = some 0
  distances : ∀ v k, s.d v = some k → Reachable g.edge source v ∧ k = min (distance g.edge source v) floatReach
  entries : ∀ e ∈ q.contents s.queue, s.d e.1 = some e.2
  expanded : ∀ v k, s.d v = some k → (v, k) ∉ q.contents s.queue → ∀ w ∈ g.out v, (s.d w).isSome ∨ v = u ∧ w ∈ rest
  parents : ∀ v k, s.d v = some k → v ≠ source → distance g.edge source v ≤ floatReach →
    ∃ p, s.parent v = some p ∧ g.edge p v ∧ (s.d p).isSome ∧ distance g.edge source p + 1 = distance g.edge source v
  orphans : ∀ v, s.d v = none → s.parent v = none

section Search

variable {q : PriorityQueue (ℕ × ℕ) Prod.snd} {g : Graph} {source u v : ℕ} {rest : List ℕ} {s : Search q}

theorem min_distance_succ {n : ℕ} : min (n + 1) floatReach = addCost (min n floatReach) := by
  unfold addCost
  split <;> omega

/-- From where a router that is not known can be reached is still in the queue, if it is known. -/
theorem Searched.open_of_unknown (h : Searched g source u [] s) {p v : ℕ} (hedge : g.edge p v) (hv : s.d v = none)
    {k : ℕ} (hp : s.d p = some k) : (p, k) ∈ q.contents s.queue := by
  by_contra hclosed
  rcases h.expanded p k hp hclosed v hedge with hsome | ⟨-, hrest⟩
  · rw [hv] at hsome
    cases hsome
  · cases hrest

theorem Searched.ne_source (h : Searched g source u rest s) {v : ℕ} (hv : s.d v = none) : v ≠ source := by
  rintro rfl
  rw [h.start] at hv
  cases hv

/-- What is not known, or still in the queue, is no nearer than the top of the queue. -/
theorem Searched.top_le (h : Searched g source u [] s) {e : ℕ × ℕ} (htop : q.top s.queue = some e) {v : ℕ}
    (hreach : Reachable g.edge source v)
    (hopen : ∀ k, s.d v = some k → (v, k) ∈ q.contents s.queue) : e.2 ≤ min (distance g.edge source v) floatReach := by
  obtain ⟨n, hn⟩ : ∃ n, distance g.edge source v = n := ⟨_, rfl⟩
  induction n generalizing v with
  | zero =>
    obtain rfl := eq_of_distance_eq_zero hreach hn
    have hkey := q.top_le _ _ htop _ (hopen 0 h.start)
    exact Nat.le_trans hkey (Nat.zero_le _)
  | succ n ih =>
    cases hv : s.d v with
    | some k =>
      obtain ⟨-, rfl⟩ := h.distances v k hv
      exact q.top_le _ _ htop _ (hopen _ hv)
    | none =>
      -- its predecessor on a shortest walk is not expanded either
      obtain ⟨p, hedge, hp, hnear⟩ := exists_nearer hreach (h.ne_source hv)
      have hple := ih hp (fun k => h.open_of_unknown hedge hv) (by omega)
      omega

/-- What is found from `u`: its distance, and `u` is its predecessor as far as distances are told apart. -/
structure Fresh (g : Graph) (source u k v : ℕ) : Prop where
  distance_eq : min (distance g.edge source v) floatReach = addCost k
  nearer : distance g.edge source v ≤ floatReach → distance g.edge source u + 1 = distance g.edge source v

/-- A neighbour of the top of the queue that is not known is one further away. -/
theorem Searched.fresh (h : Searched g source u [] s) {p k : ℕ} (htop : q.top s.queue = some (p, k)) {v : ℕ}
    (hv : v ∈ g.out p) (hnone : s.d v = none) : Fresh g source p k v := by
  have hmem : (p, k) ∈ q.contents s.queue := by
    rw [q.contents_of_some _ _ htop]
    exact Multiset.mem_cons_self _ _
  obtain ⟨hp, hk⟩ := h.distances p k (h.entries _ hmem)
  have hle := distance_le_of_edge hp hv
  obtain ⟨p', hedge, hp', hnear⟩ := exists_nearer (hp.snoc hv) (h.ne_source hnone)
  have hge := h.top_le htop hp' fun k => h.open_of_unknown hedge hnone
  dsimp only at hge
  have hcost := @min_distance_succ (distance g.edge source p)
  constructor
  · rw [hk, ← hcost]
    omega
  · omega

/-- Taking the top of the queue starts the expansion of its vertex. -/
theorem Searched.pop (h : Searched g source u [] s) {p k : ℕ} (htop : q.top s.queue = some (p, k)) :
    Searched g source p (g.out p) { s with queue := q.pop s.queue } := by
  have hcontents := q.contents_of_some _ _ htop
  refine ⟨h.start, h.distances, fun e he => ?_, fun v j hv hclosed w hw => ?_, h.parents, h.orphans⟩
  · refine h.entries e ?_
    rw [hcontents]
    exact Multiset.mem_cons_of_mem he
  · by_cases htaken : (v, j) = (p, k)
    · obtain ⟨rfl, rfl⟩ := Prod.mk.inj htaken
      exact Or.inr ⟨rfl, hw⟩
    · have hclosed' : (v, j) ∉ q.contents s.queue := by
        rw [hcontents]
        exact fun hmem => (Multiset.mem_cons.mp hmem).elim htaken hclosed
      rcases h.expanded v j hv hclosed' w hw with hsome | ⟨-, hrest⟩
      · exact Or.inl hsome
      · cases hrest

/-- A neighbour that is known has its distance already. -/
theorem Searched.improves_eq_false (h : Searched g source u rest s) {k v j : ℕ} (hu : s.d u = some k)
    (hv : v ∈ g.out u) (hj : s.d v = some j) : improves (some j) k = false := by
  obtain ⟨hreach, rfl⟩ := h.distances u k hu
  obtain ⟨-, rfl⟩ := h.distances v j hj
  have hle := distance_le_of_edge hreach hv
  have hcost := @min_distance_succ (distance g.edge source u)
  unfold improves
  dsimp only
  rw [← hcost]
  exact decide_eq_false (by omega)

theorem Searched.skip (h : Searched g source u (v :: rest) s) (hv : (s.d v).isSome) : Searched g source u rest s := by
  refine ⟨h.start, h.distances, h.entries, fun x j hx hclosed w hw => ?_, h.parents, h.orphans⟩
  rcases h.expanded x j hx hclosed w hw with hsome | ⟨hxu, hmem⟩
  · exact Or.inl hsome
  · rcases List.mem_cons.mp hmem with rfl | hmem
    · exact Or.inl hv
    · exact Or.inr ⟨hxu, hmem⟩

/-- The search after a router is found. -/
def Search.found (u v k : ℕ) (s : Search q) : Search q where
  d := Function.update s.d v (some (addCost k))
  parent := Function.update s.parent v (some u)
  queue := q.push (v, addCost k) s.queue

theorem Search.found_d (u v k : ℕ) (s : Search q) (x : ℕ) :
    (s.found u v k).d x = if x = v then some (addCost k) else s.d x := Function.update_apply ..

theorem Search.found_isSome {u v k : ℕ} {x : ℕ} (hx : (s.d x).isSome) : ((s.found u v k).d x).isSome := by
  rw [Search.found_d]
  split
  · rfl
  · exact hx

/-- A neighbour that is not known is found. -/
theorem Searched.found (h : Searched g source u (v :: rest) s) {k : ℕ} (hu : s.d u = some k) (hv : v ∈ g.out u)
    (hnone : s.d v = none) (hfresh : Fresh g source u k v) : Searched g source u rest (s.found u v k) := by
  have hold : ∀ {x : ℕ}, x ≠ v → (s.found u v k).d x = s.d x := fun hx => by
    rw [Search.found_d, if_neg hx]
  have hnew : (s.found u v k).d v = some (addCost k) := by
    rw [Search.found_d, if_pos rfl]
  have hcontents : q.contents (s.found u v k).queue = (v, addCost k) ::ₘ q.contents s.queue := q.contents_push _ _
  refine ⟨?_, fun x j hx => ?_, fun e he => ?_, fun x j hx hclosed w hw => ?_, fun x j hx hne hnear => ?_,
    fun x hx => ?_⟩
  · rw [hold (h.ne_source hnone).symm]
    exact h.start
  · by_cases hxv : x = v
    · rw [hxv, hnew] at hx
      rw [hxv, hfresh.distance_eq]
      exact ⟨(h.distances u k hu).1.snoc hv, (Option.some.inj hx).symm⟩
    · rw [hold hxv] at hx
      exact h.distances x j hx
  · rw [hcontents] at he
    rcases Multiset.mem_cons.mp he with rfl | he
    · exact hnew
    · have hentry := h.entries e he
      rw [hold]
      · exact hentry
      · intro heq
        rw [heq, hnone] at hentry
        cases hentry
  · rw [hcontents, Multiset.mem_cons, not_or] at hclosed
    by_cases hxv : x = v
    · rw [hxv, hnew] at hx
      exact absurd (by rw [hxv, Option.some.inj hx]) hclosed.1
    · rw [hold hxv] at hx
      rcases h.expanded x j hx hclosed.2 w hw with hsome | ⟨hxu, hmem⟩
      · exact Or.inl (Search.found_isSome hsome)
      · rcases List.mem_cons.mp hmem with rfl | hmem
        · exact Or.inl (hnew ▸ rfl)
        · exact Or.inr ⟨hxu, hmem⟩
  · by_cases hxv : x = v
    · subst hxv
      exact ⟨u, Function.update_self .., hv, Search.found_isSome (hu ▸ rfl), hfresh.nearer hnear⟩
    · rw [hold hxv] at hx
      obtain ⟨p, hparent, hedge, hknown, hpnear⟩ := h.parents x j hx hne hnear
      exact ⟨p, (Function.update_of_ne hxv _ _).trans hparent, hedge, Search.found_isSome hknown, hpnear⟩
  · by_cases hxv : x = v
    · rw [hxv, hnew] at hx
      cases hx
    · rw [hold hxv] at hx
      exact (Function.update_of_ne hxv _ _).trans (h.orphans x hx)

/-- Routers that are not known, and entries of the queue. -/
def potential (size : ℕ) (s : Search q) : ℕ :=
  ((Finset.range size).filter fun v => s.d v = none).card + (q.contents s.queue).card

theorem potential_found {size k : ℕ} (hv : v < size) (hnone : s.d v = none) :
    potential size (s.found u v k) = potential size s := by
  have hmem : v ∈ (Finset.range size).filter fun v => s.d v = none :=
    Finset.mem_filter.mpr ⟨Finset.mem_range.mpr hv, hnone⟩
  have herase : ((Finset.range size).filter fun x => (s.found u v k).d x = none) =
      ((Finset.range size).filter fun x => s.d x = none).erase v := by
    ext x
    rw [Finset.mem_erase, Finset.mem_filter, Finset.mem_filter, Search.found_d]
    by_cases hxv : x = v <;> simp [hxv]
  have hcontents : q.contents (s.found u v k).queue = (v, addCost k) ::ₘ q.contents s.queue := q.contents_push _ _
  have hpos := Finset.card_pos.mpr ⟨v, hmem⟩
  unfold potential
  rw [herase, Finset.card_erase_of_mem hmem, hcontents, Multiset.card_cons]
  omega

theorem potential_pop {e : ℕ × ℕ} (htop : q.top s.queue = some e) (size : ℕ) :
    potential size { s with queue := q.pop s.queue } + 1 = potential size s := by
  unfold potential
  dsimp only
  rw [q.contents_of_some _ _ htop, Multiset.card_cons]
  omega

/-- A graph all of whose loops and indices are in range. -/
structure Graph.Fits (g : Graph) : Prop where
  size_le : g.size ≤ intIds
  few : ∀ u < g.size, (g.out u).length < portIds
  inside : ∀ u, ∀ v ∈ g.out u, v < g.size

/-- As many rounds as no loop of the search needs. -/
structure Graph.Enough (g : Graph) (rounds : ℕ) : Prop where
  size : g.size + 1 < rounds
  links : ∀ u < g.size, (g.out u).length < rounds
  reach : floatReach < rounds

theorem Graph.exists_enough (g : Graph) : ∃ enough, ∀ rounds, enough ≤ rounds → g.Enough rounds := by
  refine ⟨g.size + (Finset.range g.size).sup (fun u => (g.out u).length) + floatReach + 2, fun rounds hrounds => ?_⟩
  refine ⟨by omega, fun u hu => ?_, by omega⟩
  have hle := Finset.le_sup (f := fun u => (g.out u).length) (Finset.mem_range.mpr hu)
  omega

theorem Graph.Fits.lt_size (hg : g.Fits) (hsource : source < g.size) (hreach : Reachable g.edge source v) :
    v < g.size := by
  obtain ⟨n, hwalk⟩ := hreach
  exact hwalk.mem (P := fun v => v < g.size) (fun a b hedge _ => hg.inside a b hedge) hsource

/-- A round of the inner loop keeps what the search has found and takes one neighbour off the list. -/
theorem relax_spec (hg : g.Fits) {k : ℕ} (h : Searched g source u (v :: rest) s) (hu : s.d u = some k)
    (hv : v ∈ g.out u) (hfresh : ∀ w ∈ g.out u, s.d w = none → Fresh g source u k w) :
    wp (relax q g.size u v) (fun _ t => Searched g source u rest t ∧ t.d u = some k ∧
      (∀ w ∈ g.out u, t.d w = none → Fresh g source u k w) ∧ potential g.size t = potential g.size s)
      (fun _ _ => False) s := by
  have hlt := hg.inside u v hv
  refine wp.ite_pos ⟨Nat.lt_of_lt_of_le hlt hg.size_le, hlt⟩ ?_
  rw [wp_modify, hu]
  dsimp only
  cases hj : s.d v with
  | some j =>
    rw [h.improves_eq_false hu hv hj]
    exact ⟨h.skip (hj ▸ rfl), hu, hfresh, rfl⟩
  | none =>
    have hne : u ≠ v := by
      rintro rfl
      rw [hu] at hj
      cases hj
    refine ⟨h.found hu hv hj (hfresh v hv hj), ?_, fun w hw hnone => hfresh w hw ?_, potential_found hlt hj⟩
    · exact (Function.update_of_ne hne _ _).trans hu
    · have hwv : w ≠ v := by
        rintro rfl
        exact absurd (hnone.symm.trans (Function.update_self ..)) (by simp)
      exact (Function.update_of_ne hwv _ _).symm.trans hnone

/-- A search that is over: the destination is known, or the queue is empty. -/
structure Ended (g : Graph) (source destination : ℕ) (s : Search q) : Prop where
  searched : Searched g source destination [] s
  finished : (s.d destination).isSome ∨ q.contents s.queue = 0

theorem Searched.change (h : Searched g source u [] s) (u' : ℕ) : Searched g source u' [] s :=
  ⟨h.start, h.distances, h.entries, fun v k hv hclosed w hw => (h.expanded v k hv hclosed w hw).imp id
    fun hrest => absurd hrest.2 List.not_mem_nil, h.parents, h.orphans⟩

theorem searchRound_spec (hg : g.Fits) (hsource : source < g.size) {rounds : ℕ} (hrounds : g.Enough rounds)
    (destination : ℕ) (h : Searched g source destination [] s) (x : PUnit) :
    wp (searchRound q g destination rounds x) (fun r t => (r = none → Ended g source destination t) ∧
      ∀ y, r = some y → Searched g source destination [] t ∧ potential g.size t < potential g.size s)
      (fun _ _ => False) s := by
  unfold searchRound
  refine .step (wp_get.mpr ?_)
  cases htop : q.top s.queue with
  | none => exact ⟨fun _ => ⟨h, Or.inr (q.contents_of_none _ htop)⟩, nofun⟩
  | some e =>
    obtain ⟨p, k⟩ := e
    have hmem : (p, k) ∈ q.contents s.queue := by
      rw [q.contents_of_some _ _ htop]
      exact Multiset.mem_cons_self _ _
    have hp := h.entries _ hmem
    have hplt := hg.lt_size hsource (h.distances p k hp).1
    dsimp only
    split
    · rename_i heq
      exact ⟨fun _ => ⟨h, Or.inl (by rw [← heq, hp]; rfl)⟩, nofun⟩
    · refine .step (wp_modify _ |>.mpr (.step ?_))
      have hpopped := h.change p |>.pop htop
      refine (wp_forUnsigned_of_lt (fun rest t => Searched g source p rest t ∧ t.d p = some k ∧
        (∀ w ∈ g.out p, t.d w = none → Fresh g source p k w) ∧ potential g.size t + 1 = potential g.size s ∧
        ∀ w ∈ rest, w ∈ g.out p) ?_ (hg.few p hplt) (hrounds.links p hplt)
        ⟨hpopped, hp, fun w hw hnone => (h.change p).fresh htop hw hnone, potential_pop htop _, fun _ hw => hw⟩).mono ?_
      · rintro v rest t ⟨ht, htp, hfresh, hpotential, hrest⟩
        refine (relax_spec hg ht htp (hrest v List.mem_cons_self) hfresh).mono ?_
        rintro _ t' ⟨ht', htp', hfresh', heq⟩
        exact ⟨ht', htp', hfresh', by omega, fun w hw => hrest w (List.mem_cons_of_mem v hw)⟩
      · rintro _ t ⟨ht, -, -, hpotential, -⟩
        exact ⟨nofun, fun _ _ => ⟨ht.change destination, by omega⟩⟩

theorem searchFrom_d (source v : ℕ) : (searchFrom q source).d v = if v = source then some 0 else none :=
  Function.update_apply (fun _ => (none : Option ℕ)) source (some 0) v

theorem searched_searchFrom (source u : ℕ) : Searched g source u [] (searchFrom q source) := by
  have hcontents : q.contents (searchFrom q source).queue = {(source, 0)} := by
    refine (q.contents_push _ _).trans ?_
    rw [q.contents_empty]
    rfl
  have hd : ∀ v k, (searchFrom q source).d v = some k → v = source ∧ k = 0 := by
    intro v k hv
    rw [searchFrom_d] at hv
    by_cases heq : v = source
    · rw [if_pos heq] at hv
      exact ⟨heq, (Option.some.inj hv).symm⟩
    · rw [if_neg heq] at hv
      cases hv
  have hstart : (searchFrom q source).d source = some 0 := by
    rw [searchFrom_d, if_pos rfl]
  refine ⟨hstart, fun v k hv => ?_, fun e he => ?_, fun v k hv hclosed w _ => ?_,
    fun v k hv hne _ => absurd (hd v k hv).1 hne, fun _ _ => rfl⟩
  · obtain ⟨rfl, rfl⟩ := hd v k hv
    rw [distance_self, Nat.zero_min]
    exact ⟨.refl v, rfl⟩
  · rw [hcontents] at he
    rw [Multiset.mem_singleton.mp he]
    exact hstart
  · obtain ⟨rfl, rfl⟩ := hd v k hv
    exact absurd (hcontents ▸ Multiset.mem_singleton_self _) hclosed

theorem potential_searchFrom (size source : ℕ) : potential size (searchFrom q source) ≤ size + 1 := by
  have hcontents : (q.contents (searchFrom q source).queue).card = 1 := by
    refine congrArg Multiset.card ((q.contents_push _ _).trans ?_) |>.trans (Multiset.card_singleton (source, 0))
    rw [q.contents_empty]
    rfl
  have hle := Finset.card_filter_le (Finset.range size) fun v => (searchFrom q source).d v = none
  rw [Finset.card_range] at hle
  unfold potential
  rw [hcontents]
  omega

/-- The search ends without a fault, and then knows the destination or all that can be reached. -/
theorem search_spec (hg : g.Fits) (hsource : source < g.size) {rounds : ℕ} (hrounds : g.Enough rounds)
    (destination : ℕ) : wp (loop (searchRound q g destination rounds) .rounds rounds ⟨⟩)
      (fun _ => Ended g source destination) (fun _ _ => False) (searchFrom q source) := by
  have hstart := potential_searchFrom (q := q) g.size source
  refine wp_loop_of_lt (fun s _ => Searched g source destination [] s) (fun s _ => potential g.size s)
    (fun s x hs => searchRound_spec hg hsource hrounds destination hs x) ?_ (searched_searchFrom source destination)
  exact Nat.lt_of_le_of_lt hstart hrounds.size

/-- A search that has emptied the queue knows all that can be reached. -/
theorem Searched.known_of_empty (h : Searched g source u [] s) (hempty : q.contents s.queue = 0)
    (hreach : Reachable g.edge source v) : (s.d v).isSome := by
  obtain ⟨n, hwalk⟩ := hreach
  induction n generalizing v with
  | zero =>
    cases hwalk
    rw [h.start]
    rfl
  | succ n ih =>
    obtain ⟨p, hp, hedge⟩ := hwalk.last
    obtain ⟨k, hk⟩ := Option.isSome_iff_exists.mp (ih hp)
    rcases h.expanded p k hk (hempty ▸ Multiset.notMem_zero _) v hedge with hsome | ⟨-, hrest⟩
    · exact hsome
    · cases hrest

/-- A shortest walk from the source, listed backwards. -/
inductive Trail (edge : ℕ → ℕ → Prop) (source : ℕ) : ℕ → List ℕ → Prop
  | start : Trail edge source source [source]
  | back {u v : ℕ} {rest : List ℕ} (hedge : edge u v) (hnear : distance edge source u + 1 = distance edge source v)
      (hrest : Trail edge source u rest) : Trail edge source v (v :: rest)

/-- The parents lead back to the source. -/
theorem Searched.walkBack_ok (h : Searched g source u [] s) (hg : g.Fits) (hv : (s.d v).isSome)
    (hnear : distance g.edge source v ≤ floatReach) {rounds : ℕ} (hrounds : distance g.edge source v < rounds) :
    ∃ path, walkBack g.size s.parent source rounds v = .ok path ∧ Trail g.edge source v path := by
  induction rounds generalizing v with
  | zero => cases hrounds
  | succ rounds ih =>
    by_cases hvs : v = source
    · subst hvs
      exact ⟨[v], if_pos rfl, .start⟩
    · obtain ⟨k, hk⟩ := Option.isSome_iff_exists.mp hv
      obtain ⟨p, hparent, hedge, hp, hpnear⟩ := h.parents v k hk hvs hnear
      obtain ⟨path, hpath, htrail⟩ := ih hp (by omega) (by omega)
      have hlt := hg.inside p v hedge
      refine ⟨v :: path, ?_, .back hedge hpnear htrail⟩
      unfold walkBack
      rw [if_neg hvs, if_pos ⟨Nat.lt_of_lt_of_le hlt hg.size_le, hlt⟩, hparent]
      exact congrArg (Except.map (v :: ·)) hpath

/-- A shortest path as `dijkstra` lists it: from the destination back to the source. -/
structure IsShortestPath (edge : ℕ → ℕ → Prop) (source destination : ℕ) (path : List ℕ) : Prop where
  head : path.head? = some destination
  last : path.getLast? = some source
  linked : path.IsChain fun next cur => edge cur next
  length : IsLeast {n | Walk edge source n destination} (path.length - 1)

theorem Trail.shape {edge : ℕ → ℕ → Prop} {path : List ℕ} (h : Trail edge source v path) :
    path.head? = some v ∧ path.getLast? = some source ∧ path.IsChain (fun next cur => edge cur next) ∧
      path.length = distance edge source v + 1 := by
  induction h with
  | start => exact ⟨rfl, rfl, List.isChain_singleton _, by rw [distance_self]; rfl⟩
  | @back u v rest hedge hnear _ ih =>
    obtain ⟨hhead, hlast, hlinked, hlength⟩ := ih
    obtain ⟨tail, rfl⟩ := List.head?_eq_some_iff.mp hhead
    refine ⟨rfl, by rw [List.getLast?_cons_cons]; exact hlast, List.isChain_cons_cons.mpr ⟨hedge, hlinked⟩, ?_⟩
    rw [List.length_cons, hlength]
    omega

theorem Graph.Fits.access (hg : g.Fits) (hsource : source < g.size) : source < intIds ∧ source < g.size :=
  ⟨Nat.lt_of_lt_of_le hsource hg.size_le, hsource⟩

theorem Graph.Fits.not_wide (hg : g.Fits) : ¬ portIds ≤ g.size :=
  Nat.not_le.mpr (Nat.lt_of_le_of_lt hg.size_le (by decide))

/-- For a destination that can be reached, `dijkstra` returns a trail back to the source. -/
theorem dijkstra_ok (q : PriorityQueue (ℕ × ℕ) Prod.snd) (hg : g.Fits) (hsource : source < g.size) {rounds : ℕ}
    (hrounds : g.Enough rounds) {destination : ℕ} (hreach : Reachable g.edge source destination)
    (hnear : distance g.edge source destination ≤ floatReach) :
    ∃ path, dijkstra q g rounds source destination = .ok path ∧ Trail g.edge source destination path := by
  have hsearch := search_spec (q := q) hg hsource hrounds destination
  unfold dijkstra
  rw [if_neg hg.not_wide, if_pos (hg.access hsource)]
  cases hrun : loop (searchRound q g destination rounds) .rounds rounds ⟨⟩ (searchFrom q source) with
  | error e t => exact (hsearch.of_error hrun).elim
  | ok x t =>
    obtain ⟨ht, hover⟩ := hsearch.of_ok hrun
    have hknown := hover.elim id fun hempty => ht.known_of_empty hempty hreach
    exact ht.walkBack_ok hg hknown hnear (Nat.lt_of_le_of_lt hnear hrounds.reach)

/-- For a destination that cannot be reached, the parent of the destination is followed, which is -1. -/
theorem dijkstra_outside (q : PriorityQueue (ℕ × ℕ) Prod.snd) (hg : g.Fits) (hsource : source < g.size) {rounds : ℕ}
    (hrounds : g.Enough rounds) {destination : ℕ} (hreach : ¬ Reachable g.edge source destination) :
    dijkstra q g rounds source destination = .error .outside := by
  have hsearch := search_spec (q := q) hg hsource hrounds destination
  unfold dijkstra
  rw [if_neg hg.not_wide, if_pos (hg.access hsource)]
  cases hrun : loop (searchRound q g destination rounds) .rounds rounds ⟨⟩ (searchFrom q source) with
  | error e t => exact (hsearch.of_error hrun).elim
  | ok x t =>
    obtain ⟨ht, -⟩ := hsearch.of_ok hrun
    have hunknown : t.d destination = none := by
      cases hd : t.d destination with
      | none => rfl
      | some k => exact absurd (ht.distances _ k hd).1 hreach
    obtain ⟨rounds, rfl⟩ := Nat.exists_eq_succ_of_ne_zero (Nat.ne_of_gt (Nat.zero_lt_of_lt hrounds.reach))
    dsimp only
    unfold walkBack
    rw [if_neg (ht.ne_source hunknown), ht.orphans _ hunknown]
    dsimp only
    rw [ite_self]

/-- From any source `dijkstra` finds a shortest path to each router that can be reached, as far as `float` counts, and
goes outside of its vectors for each that cannot. -/
theorem dijkstra_shortest (q : PriorityQueue (ℕ × ℕ) Prod.snd) (hg : g.Fits) (hsource : source < g.size) :
    ∃ enough, ∀ rounds, enough ≤ rounds → ∀ destination,
      (Reachable g.edge source destination → distance g.edge source destination ≤ floatReach →
        ∃ path, dijkstra q g rounds source destination = .ok path ∧
          IsShortestPath g.edge source destination path) ∧
      (¬ Reachable g.edge source destination → dijkstra q g rounds source destination = .error .outside) := by
  obtain ⟨enough, henough⟩ := g.exists_enough
  refine ⟨enough, fun rounds hrounds destination => ⟨fun hreach hnear => ?_, dijkstra_outside q hg hsource
    (henough rounds hrounds)⟩⟩
  obtain ⟨path, hpath, htrail⟩ := dijkstra_ok q hg hsource (henough rounds hrounds) hreach hnear
  obtain ⟨hhead, hlast, hlinked, hlength⟩ := htrail.shape
  refine ⟨path, hpath, hhead, hlast, hlinked, ?_⟩
  rw [hlength, Nat.add_sub_cancel]
  exact isLeast_distance hreach

/-- Two links in a row, and a router without links. -/
def rowGraph : Graph := ⟨3, fun u => if u < 2 then [u + 1] else []⟩

theorem rowGraph_fits : rowGraph.Fits := by
  refine ⟨by decide, by decide, fun u v hv => ?_⟩
  by_cases hu : u < 2
  · have hout : rowGraph.out u = [u + 1] := if_pos hu
    rw [hout] at hv
    rw [List.mem_singleton.mp hv]
    exact Nat.succ_lt_succ hu
  · have hout : rowGraph.out u = [] := if_neg hu
    rw [hout] at hv
    cases hv

theorem dijkstra_shortest_row : ∃ enough, ∀ rounds, enough ≤ rounds →
    ∃ path, dijkstra (.sorted Prod.snd) rowGraph rounds 0 2 = .ok path ∧ IsShortestPath rowGraph.edge 0 2 path := by
  obtain ⟨enough, h⟩ := dijkstra_shortest (.sorted Prod.snd) rowGraph_fits (show 0 < rowGraph.size by decide)
  have hwalk : Walk rowGraph.edge 0 2 2 :=
    .step (show rowGraph.edge 0 1 from List.mem_cons_self) (.step (show rowGraph.edge 1 2 from List.mem_cons_self)
      (.stay 2))
  exact ⟨enough, fun rounds hrounds => (h rounds hrounds 2).1 ⟨2, hwalk⟩ ((distance_le hwalk).trans (by decide))⟩

/-- The loop over the links of a router ends, and its id is an index. -/
def Graph.Expands (g : Graph) (u : ℕ) : Prop := u < intIds ∧ (g.out u).length < portIds

/-- Entries of the queue are indices, and parents were expanded, but for the router that is being expanded. -/
structure Indexed (g : Graph) (now : Option ℕ) (s : Search q) : Prop where
  entries : ∀ e ∈ q.contents s.queue, e.1 < intIds
  parents : ∀ v p, s.parent v = some p → g.Expands p ∨ now = some p

theorem Indexed.relax (h : Indexed g (some u) s) (size : ℕ) :
    wp (relax q size u v) (fun _ => Indexed g (some u)) (fun _ _ => True) s := by
  unfold Connect.relax
  split
  · rename_i hv
    rw [wp_modify]
    split
    · exact h
    · split
      · refine ⟨fun e he => ?_, fun x p hp => ?_⟩
        · rcases Multiset.mem_cons.mp (q.contents_push _ _ ▸ he) with rfl | he
          · exact hv.1
          · exact h.entries e he
        · by_cases hxv : x = v
          · have hself : Function.update s.parent v (some u) v = some u := Function.update_self ..
            rw [hxv] at hp
            exact Or.inr (hself.symm.trans hp)
          · exact h.parents x p ((Function.update_of_ne hxv _ _).symm.trans hp)
      · exact h
  · exact trivial

theorem Indexed.searchRound (h : Indexed g none s) (destination rounds : ℕ) (x : PUnit) :
    wp (searchRound q g destination rounds x) (fun r t => (r = none → Indexed g none t) ∧
      ∀ y, r = some y → Indexed g none t) (fun _ _ => True) s := by
  unfold Connect.searchRound
  refine .step (wp_get.mpr ?_)
  cases htop : q.top s.queue with
  | none => exact ⟨fun _ => h, nofun⟩
  | some e =>
    obtain ⟨p, k⟩ := e
    have hcontents := q.contents_of_some _ _ htop
    have hp : p < intIds := h.entries (p, k) (hcontents ▸ Multiset.mem_cons_self _ _)
    dsimp only
    split
    · exact ⟨fun _ => h, nofun⟩
    · refine .step (wp_modify _ |>.mpr (.step ?_))
      have hpopped : Indexed g (some p) { s with queue := q.pop s.queue } :=
        ⟨fun e he => h.entries e (hcontents ▸ Multiset.mem_cons_of_mem he),
          fun v p' hp' => Or.inl ((h.parents v p' hp').resolve_right nofun)⟩
      refine (wp_forUnsigned (fun v _ t ht => ht.relax g.size) (fun _ => trivial) rounds hpopped).mono ?_
      rintro _ t ⟨ht, hfew⟩
      refine ⟨nofun, fun _ _ => ⟨ht.entries, fun v p' hp' => ?_⟩⟩
      rcases ht.parents v p' hp' with hexpands | hnow
      · exact Or.inl hexpands
      · obtain rfl := Option.some.inj hnow
        exact Or.inl ⟨hp, hfew⟩

theorem expands_walkBack (h : Indexed g none s) (size source : ℕ) {rounds v : ℕ} {path : List ℕ}
    (hpath : walkBack size s.parent source rounds v = .ok path) :
    path.head? = some v ∧ ∀ p ∈ path.tail, g.Expands p := by
  induction rounds generalizing v path with
  | zero => cases hpath
  | succ rounds ih =>
    unfold walkBack at hpath
    split at hpath
    · cases hpath
      exact ⟨rfl, nofun⟩
    · split at hpath
      · cases hparent : s.parent v with
        | none =>
          rw [hparent] at hpath
          cases hpath
        | some p =>
          rw [hparent] at hpath
          dsimp only at hpath
          cases hrest : walkBack size s.parent source rounds p with
          | error e =>
            rw [hrest] at hpath
            cases hpath
          | ok rest =>
            rw [hrest] at hpath
            obtain rfl := Except.ok.inj hpath
            obtain ⟨hhead, htail⟩ := ih hrest
            obtain ⟨tail, rfl⟩ := List.head?_eq_some_iff.mp hhead
            refine ⟨rfl, fun p' hp' => ?_⟩
            rcases List.mem_cons.mp hp' with rfl | hp'
            · exact (h.parents v p' hparent).resolve_right nofun
            · exact htail p' hp'
      · cases hpath

/-- Whenever `dijkstra` returns, every router of the path before the destination was expanded. -/
theorem expands_dijkstra {rounds source destination : ℕ} {path : List ℕ}
    (h : dijkstra q g rounds source destination = .ok path) : ∀ p ∈ path.tail, g.Expands p := by
  unfold dijkstra at h
  split at h
  · cases h
  · split at h
    · rename_i hsource
      have hstart : Indexed g none (searchFrom q source) := by
        refine ⟨fun e he => ?_, nofun⟩
        rcases Multiset.mem_cons.mp (q.contents_push _ _ ▸ he) with rfl | he
        · exact hsource.1
        · rw [q.contents_empty] at he
          cases he
      have hsearch : wp (loop (searchRound q g destination rounds) .rounds rounds ⟨⟩) (fun _ => Indexed g none)
          (fun _ _ => True) (searchFrom q source) :=
        wp_loop (fun t _ => Indexed g none t) (fun t x ht => ht.searchRound destination rounds x) (fun _ => trivial)
          rounds hstart
      cases hrun : loop (searchRound q g destination rounds) .rounds rounds ⟨⟩ (searchFrom q source) with
      | error e t =>
        rw [hrun] at h
        cases h
      | ok x t =>
        rw [hrun] at h
        exact (expands_walkBack (hsearch.of_ok hrun) g.size source h).2
    · cases h

end Search

end Vpsim.Connect
