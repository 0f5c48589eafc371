import Vpsim.Connect.DefaultRouting

/-!
# A ring of routers

`C_Ring` links each router to the next one, and if it is bidirectional to the one before. The default routes then go
the shorter way round.
-/

namespace Vpsim.Connect

open Vpsim.Lib

namespace Ring

/-- The links of one router, to `NextRouterID` and `PrevRouterID`. -/
def routerLinks (size : ℕ) (bidirectional : Bool) (routerId : ℕ) : List (ℕ × ℕ) :=
  let next := (routerId + 1) % size
  let prev := if routerId = 0 then size - 1 else routerId - 1
  (routerId, next) :: if bidirectional then [(routerId, prev)] else []

/-- The calls of `AddLink`. -/
def links (size : ℕ) (bidirectional : Bool) : List (ℕ × ℕ) :=
  if size = 1 then [] else (List.range size).flatMap (routerLinks size bidirectional)

/-- `C_Ring`. -/
def build (size : ℕ) (bidirectional : Bool) : NocBase :=
  if size = 1 then NocBase.empty.addRouter 0 else (links size bidirectional).foldl NocBase.addLink NocBase.empty

/-- The hops to a router when all links go ahead. -/
def ahead (size src dst : ℕ) : ℕ := (dst + size - src) % size

/-- The hops to a router, the shorter way round if there are two. -/
def hops (size : ℕ) (bidirectional : Bool) (src dst : ℕ) : ℕ :=
  if bidirectional then min (ahead size src dst) (size - ahead size src dst) else ahead size src dst

variable {size src dst : ℕ} {bidirectional : Bool}

theorem ahead_spec (hsrc : src < size) (hdst : dst < size) :
    ahead size src dst < size ∧ (src + ahead size src dst = dst ∨ src + ahead size src dst = dst + size) := by
  unfold ahead
  rcases Nat.lt_or_ge dst src with h | h
  · rw [Nat.mod_eq_of_lt (by omega)]
    omega
  · rw [show dst + size - src = dst - src + size by omega, Nat.add_mod_right, Nat.mod_eq_of_lt (by omega)]
    omega

/-- The router after the last one of the ring is the first. -/
theorem next_eq (hsrc : src < size) : (src + 1) % size = if src + 1 = size then 0 else src + 1 := by
  split_ifs with hlast
  · rw [hlast, Nat.mod_self]
  · exact Nat.mod_eq_of_lt (by omega)

theorem hasLink_iff (hsize : size ≠ 1) : HasLink (links size bidirectional) src dst ↔
    src < size ∧ (dst = (src + 1) % size ∨ bidirectional = true ∧ dst = if src = 0 then size - 1 else src - 1) := by
  unfold HasLink links
  rw [if_neg hsize, List.mem_flatMap]
  constructor
  · rintro ⟨r, hr, hmem⟩
    have hlt := List.mem_range.mp hr
    rcases List.mem_cons.mp hmem with heq | hmem
    · cases heq
      exact ⟨hlt, .inl rfl⟩
    · cases bidirectional with
      | false => cases hmem
      | true =>
        cases List.mem_singleton.mp hmem
        exact ⟨hlt, .inr ⟨rfl, rfl⟩⟩
  · rintro ⟨hlt, rfl | ⟨rfl, rfl⟩⟩
    · exact ⟨src, List.mem_range.mpr hlt, List.mem_cons_self⟩
    · exact ⟨src, List.mem_range.mpr hlt, List.mem_cons_of_mem _ (List.mem_singleton_self _)⟩

/-- A link connects routers of the ring. -/
theorem lt_of_hasLink (hsize : size ≠ 1) (h : HasLink (links size bidirectional) src dst) : src < size ∧ dst < size := by
  obtain ⟨hlt, hdst⟩ := (hasLink_iff hsize).mp h
  refine ⟨hlt, ?_⟩
  rcases hdst with rfl | ⟨-, rfl⟩
  · exact Nat.mod_lt _ (by omega)
  · split_ifs <;> omega

/-- The hops to a router are the distance. -/
theorem distance_links (hsize : size ≠ 1) (hsrc : src < size) (hdst : dst < size) :
    Reachable (HasLink (links size bidirectional)) src dst ∧
      distance (HasLink (links size bidirectional)) src dst = hops size bidirectional src dst := by
  apply distance_eq_of_potential (P := fun r => r < size) (f := fun r => hops size bidirectional r dst)
  · exact fun a b h _ => (lt_of_hasLink hsize h).2
  · intro a ha
    have hspec := ahead_spec ha hdst
    unfold hops
    split_ifs <;> omega
  · intro a b ha h
    obtain ⟨hlt, hb⟩ := (hasLink_iff hsize).mp h
    rw [next_eq ha] at hb
    have hspec := ahead_spec ha hdst
    have hspec' := ahead_spec (lt_of_hasLink hsize h).2 hdst
    unfold hops
    rcases hb with hb | ⟨rfl, hb⟩
    · split_ifs at hb ⊢ <;> omega
    · rw [if_pos rfl, if_pos rfl]
      split_ifs at hb <;> omega
  · intro a ha hpos
    have hspec := ahead_spec ha hdst
    by_cases hway : bidirectional = true ∧ size - ahead size a dst < ahead size a dst
    · obtain ⟨rfl, hshort⟩ := hway
      have hlink : HasLink (links size true) a (if a = 0 then size - 1 else a - 1) :=
        (hasLink_iff hsize).mpr ⟨ha, .inr ⟨rfl, rfl⟩⟩
      have hspec' := ahead_spec (lt_of_hasLink hsize hlink).2 hdst
      refine ⟨_, hlink, ?_⟩
      unfold hops
      rw [if_pos rfl, if_pos rfl]
      split_ifs at hspec' ⊢ <;> omega
    · have hlink : HasLink (links size bidirectional) a ((a + 1) % size) := (hasLink_iff hsize).mpr ⟨ha, .inl rfl⟩
      have hspec' := ahead_spec (lt_of_hasLink hsize hlink).2 hdst
      refine ⟨_, hlink, ?_⟩
      rw [next_eq ha] at hspec' ⊢
      unfold hops at hpos ⊢
      cases bidirectional with
      | false =>
        rw [if_neg Bool.false_ne_true] at hpos ⊢
        rw [if_neg Bool.false_ne_true]
        split_ifs at hspec' ⊢ <;> omega
      | true =>
        have hnear := not_and.mp hway rfl
        rw [if_pos rfl] at hpos ⊢
        rw [if_pos rfl]
        split_ifs at hspec' ⊢ <;> omega
  · exact hsrc

theorem hops_lt (hsrc : src < size) (hdst : dst < size) : hops size bidirectional src dst < size := by
  have hspec := ahead_spec hsrc hdst
  unfold hops
  split_ifs <;> omega

theorem stronglyConnected_links (hsize : size ≠ 1) : StronglyConnected (links size bidirectional) size :=
  ⟨fun _ hcall => lt_of_hasLink hsize hcall, fun _ hr _ hd => (distance_links hsize hr hd).1⟩

theorem near_links (hsize : size ≠ 1) (hreach : size ≤ floatReach + 1) : Near (links size bidirectional) size := by
  intro r hr d hd
  rw [(distance_links hsize hr hd).2]
  have hlt : hops size bidirectional r d < size := hops_lt hr hd
  omega

/-- Each router has at most two links. -/
theorem flatMap_routerLinks_length (l : List ℕ) :
    (l.flatMap (routerLinks size bidirectional)).length ≤ 2 * l.length := by
  induction l with
  | nil => exact Nat.zero_le _
  | cons r l ih =>
    have hrouter : (routerLinks size bidirectional r).length ≤ 2 := by
      cases bidirectional with
      | false => exact Nat.le_succ 1
      | true => exact le_rfl
    rw [List.flatMap_cons, List.length_append, List.length_cons]
    omega

theorem countable_links (hsize : size ≠ 1) (hreach : size ≤ floatReach + 1) :
    Countable (links size bidirectional) size := by
  refine ⟨hreach.trans (by decide), fun r => ?_⟩
  have hlength : ((List.range size).flatMap (routerLinks size bidirectional)).length ≤ _ := flatMap_routerLinks_length _
  rw [List.length_range] at hlength
  refine (NocBase.outOf_length_le _ r).trans_lt ?_
  unfold links
  rw [if_neg hsize]
  exact (hlength.trans (Nat.mul_le_mul_left 2 hreach)).trans_lt (by decide)

/-- The default routes of a ring go the shorter way round, from every router to every other. -/
theorem ring_routes (q : PriorityQueue (ℕ × ℕ) Prod.snd) (bidirectional : Bool) (hreach : size ≤ floatReach + 1) :
    ∃ enough, ∀ rounds, enough ≤ rounds → ∃ net,
      (build size bidirectional).buildDefaultRoutingBidirectional q rounds = .ok net ∧
        ∀ src < size, ∀ dst < size,
          (∃ visited, Visits (fun cur next => net.Leads cur dst next) dst src visited ∧
            visited.length = hops size bidirectional src dst) ∧
          ∀ rounds, size ≤ rounds → net.hopCount dst rounds src 0 = some (hops size bidirectional src dst) := by
  by_cases hsize : size = 1
  · subst hsize
    refine ⟨0, fun rounds _ => ⟨_, rfl, fun src hsrc dst hdst => ?_⟩⟩
    obtain rfl : src = 0 := by omega
    obtain rfl : dst = 0 := by omega
    have hzero : 0 = hops 1 bidirectional 0 0 := by cases bidirectional <;> rfl
    refine ⟨⟨[], .here, hzero⟩, fun rounds hrounds => ?_⟩
    rw [NocBase.hopCount_of_visits .here hrounds, ← hzero]
    rfl
  · have hroutes : RoutesShortest q (links size bidirectional) [] size :=
      ((default_routes_shortest_iff q (stronglyConnected_links hsize)).1 (near_links hsize hreach)).mpr
        (.inr (countable_links hsize hreach))
    obtain ⟨enough, henough⟩ := hroutes
    refine ⟨enough, fun rounds hrounds => ?_⟩
    obtain ⟨net, hrun, hshortest⟩ := henough rounds hrounds
    have hbuild : build size bidirectional = NocBase.build (links size bidirectional) [] := if_neg hsize
    refine ⟨net, hbuild ▸ hrun, fun src hsrc dst hdst => ?_⟩
    obtain ⟨visited, hvisits, hleast, hcount⟩ := hshortest src hsrc dst hdst
    have hlength : visited.length = hops size bidirectional src dst := by
      obtain ⟨hreachable, hdistance⟩ := distance_links hsize hsrc hdst
      exact (hleast.unique (isLeast_distance hreachable)).trans hdistance
    refine ⟨⟨visited, hvisits, hlength⟩, fun rounds' hrounds' => ?_⟩
    rw [← hlength]
    apply hcount
    rw [hlength]
    exact (hops_lt hsrc hdst).trans_le hrounds'

/-- In a ring of eight routers the route from router 0 to router 5 takes three hops. -/
theorem ring_routes_eight : ∃ net, (∃ rounds, (build 8 true).buildDefaultRoutingBidirectional (.sorted Prod.snd) rounds =
    .ok net) ∧ net.hopCount 5 8 0 0 = some 3 := by
  obtain ⟨enough, henough⟩ := ring_routes (.sorted Prod.snd) true (show 8 ≤ floatReach + 1 by decide)
  obtain ⟨net, hrun, hroutes⟩ := henough enough le_rfl
  exact ⟨net, ⟨enough, hrun⟩, (hroutes 0 (by decide) 5 (by decide)).2 8 le_rfl⟩

end Ring

end Vpsim.Connect
