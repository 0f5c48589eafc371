import Vpsim.Memory.NodeSpec

/-!
# CPU accesses

A CPU access, of any number of lines, keeps the invariant of the hierarchy, and so does a whole
run from the empty hierarchy.
-/

namespace Vpsim.Memory

open Vpsim.Lib

namespace Hierarchy

variable {n : ℕ} {H : Hierarchy n} {live : Set (CacheRef n × LineRef × ℕ)} {v : View (CacheRef n)}
  {s : State (CacheRef n)} {a : ℕ} {j : Fin n} {c : CoherenceCommand} {x x' : CoherenceState}
  {E : Stop → State (CacheRef n) → Prop} {I : View (CacheRef n) → Prop}
  {home : Transaction → CacheM (CacheRef n) Unit}

/-- A request of an L1 to its L2 is granted and keeps the invariant. -/
theorem send_l2 (hserve : H.Serves E I home) (hreq : CpuRequests c x x') (h : H.Sees live v s)
    (hfree2 : ∀ q b, (.l2 j, q, b) ∉ live) (hfree : ∀ q b, (.home, q, b) ∉ live) (ha : H.IsLine a)
    (hinv : H.InvWith I v) (hx : v.st (.l1 j) a = x) :
    wp (sendCoherenceTransaction H.toPlatform (H.l1PortsOver home j) (.l1 j) c a ∅)
      (fun _ s' => H.Granted I live j a x' (v.st (.l1 j)) s') E s := by
  have hlower : c.toHigher = false ∧ ¬ (c = .invalidate ∨ c = .readBack) := by
    cases hreq <;> simp [CoherenceCommand.toHigher]
  unfold sendCoherenceTransaction
  dsimp only
  rw [if_neg (by simp [hlower.1]), if_neg hlower.2]
  exact accessL2Cache_spec hserve hreq h hfree2 hfree ha hinv hx

/-- A request of an L1, and its own change of state. -/
theorem wp_request (hserve : H.Serves E I home) (hreq : CpuRequests c x x') {p : LineRef} (hp : (.l1 j, p, a) ∈ live)
    (h : H.Sees live v s) (hfree2 : ∀ q b, (.l2 j, q, b) ∉ live)
    (hfree : ∀ q b, (.home, q, b) ∉ live) (ha : H.IsLine a) (hinv : H.InvWith I v)
    (hx : v.st (.l1 j) a = x) :
    wp (do
      sendCoherenceTransaction H.toPlatform (H.l1PortsOver home j) (.l1 j) c a ∅
      setState (.l1 j) p x')
      (fun _ s' => ∃ v', H.Sees live v' s' ∧ H.InvWith I v' ∧ v'.st (.l1 j) a = x' ∧
        ∀ b, b ≠ a → v'.st (.l1 j) b = v.st (.l1 j) b) E s := by
  refine .step (.mono (send_l2 hserve hreq h hfree2 hfree ha hinv hx) fun _ s₁ ⟨v₁, h₁, hinv₁, hl1⟩ => ?_)
  refine wp_setState h₁ hp ha fun s₂ h₂ => ⟨_, h₂, hinv₁, View.setSt_at, fun b hb => ?_⟩
  simpa [hb] using hl1 b hb

/-- A completed write keeps the invariant of the home's own lines, if the home has an owner of the line. -/
theorem HomeInv.cpuWrite {b : ℕ} (howned : ∃ o, v.dir .home a = some (.ownedBy o)) (hinv : H.HomeInv v b) :
    H.HomeInv (v.emit (.cpuWrite a)) b := by
  obtain ⟨hpresent, hexclusive, hexcluded, hdirty, hstrict⟩ := hinv
  refine ⟨hpresent, hexclusive, fun hx hm => hexcluded hx fun e he => hm e (List.mem_cons_of_mem _ he),
    fun hd hm => ?_, fun hs => hstrict fun hs' => hs ?_⟩
  · rcases hd with rfl | hd
    · exact .inl howned
    · exact hdirty hd fun hex e he => hm hex e (List.mem_cons_of_mem _ he)
  · exact Excused.append (l := [_]) hs'

/-- A write to a line that the L1 has modified keeps the invariant. -/
theorem InvWith.cpuWrite (hserve : H.Serves E I home) (hinv : H.InvWith I v)
    (hx : v.st (.l1 j) a = .modified) : H.InvWith I (v.emit (.cpuWrite a)) where
  precise := hinv.precise
  home := by
    refine hserve.write ?_ hinv.home
    -- The node of the writer holds the line modified, so the home has it as owned.
    obtain ⟨hold, hnode, hhome⟩ := hinv.precise a
    have hk := ((hnode j).of_l1_modified hx).1
    cases hhome with
    | uncached _ hhold => simp [hhold] at hk
    | shared T _ _ hhold =>
      rw [hhold] at hk
      split at hk <;> cases hk
    | owned o hD _ => exact ⟨_, hD⟩

/-- The read or write of the line that the L1 has or has allocated keeps the invariant. -/
theorem cpuAllocating_spec (hserve : H.Serves E I home) (write : Bool) {addr : ℕ} {p : LineRef} (hp : (.l1 j, p, a) ∈ live)
    (hbase : (H.cfg (.l1 j)).geometry.lineBase addr = a) (h : H.Sees live v s)
    (hfree2 : ∀ q b, (.l2 j, q, b) ∉ live) (hfree : ∀ q b, (.home, q, b) ∉ live) (ha : H.IsLine a)
    (hinv : H.InvWith I v) {hit : Bool} (hhit : hit = true ↔ v.st (.l1 j) a ≠ .invalid) :
    wp (cpuAllocating H.toPlatform (H.l1PortsOver home j) (.l1 j) (if write then .write else .read) hit p addr)
      (fun _ s' => ∃ v', H.Sees live v' s' ∧ H.InvWith I v') E s := by
  cases write with
  | false =>
    refine wp_runIf (fun hmiss => ?_) fun _ => ⟨v, h, hinv⟩
    have hx : v.st (.l1 j) a = .invalid := by rwa [← Bool.not_eq_true, hhit, not_not] at hmiss
    rw [hbase]
    exact .mono (wp_request hserve .read hp h hfree2 hfree ha hinv hx) fun _ s₁ ⟨v₁, h₁, hinv₁, _⟩ =>
      ⟨v₁, h₁, hinv₁⟩
  | true =>
    refine .step (wp_getLine h hp fun line haddr hst => .step ?_)
    rw [haddr]
    refine .mono (Q := fun _ s₁ => ∃ v₁, H.Sees live v₁ s₁ ∧ H.InvWith I v₁ ∧ v₁.st (.l1 j) a = .modified)
      (wp_runIf (fun hne => ?_) fun hM => ?_) ?_
    · cases hx : v.st (.l1 j) a with
      | modified => exact absurd (hst.trans hx) hne
      | shared =>
        exact .mono (wp_request hserve .upgrade hp h hfree2 hfree ha hinv hx)
          fun _ s₁ ⟨v₁, h₁, hinv₁, hx₁, _⟩ => ⟨v₁, h₁, hinv₁, hx₁⟩
      | invalid =>
        exact .mono (wp_request hserve .own hp h hfree2 hfree ha hinv hx)
          fun _ s₁ ⟨v₁, h₁, hinv₁, hx₁, _⟩ => ⟨v₁, h₁, hinv₁, hx₁⟩
    · exact ⟨v, h, hinv, hst.symm.trans (not_not.1 hM)⟩
    · rintro - s₁ ⟨v₁, h₁, hinv₁, hx₁⟩
      refine .step (wp_getLine h₁ hp fun line' haddr' _ => ?_)
      rw [haddr']
      exact wp_emit h₁ fun s₂ h₂ => ⟨_, h₂, hinv₁.cpuWrite hserve hx₁⟩

/-- On a miss the L1 gives its victim up and allocates the place. -/
theorem wp_l1Allocate (hserve : H.Serves E I home) {addr : ℕ} (hbase : (H.cfg (.l1 j)).geometry.lineBase addr = a)
    (h : H.Sees ∅ v s) (hinv : H.InvWith I v) {p : LineRef} (hway : (s.cache (.l1 j)).Way p)
    (hindex : p.index = (H.cfg (.l1 j)).geometry.index a) (habsent : v.st (.l1 j) a = .invalid)
    {α : Type} {Q : α → State (CacheRef n) → Prop} {k : CacheM (CacheRef n) α} {handle : ℕ}
    (hk : ∀ v' s', H.Sees {(.l1 j, p, a)} v' s' → H.InvWith I v' → v'.st (.l1 j) a = .invalid →
      wp k Q E s') :
    wp (do
      cpuWriteBack H.toPlatform (H.l1PortsOver home j) (.l1 j) false p
      allocate H.toPlatform (.l1 j) false p ((H.cfg (.l1 j)).geometry.lineBase addr) addr handle
      k) Q E s := by
  have hnew {v₁ s₁} (h₁ : H.Sees ∅ v₁ s₁) (hinv₁ : H.InvWith I v₁) (hway₁ : (s₁.cache (.l1 j)).Way p)
      (habsent₁ : v₁.st (.l1 j) a = .invalid)
      (hvacant : ((s₁.cache (.l1 j)).line p).state = .invalid) :
      wp (do
        allocate H.toPlatform (.l1 j) false p ((H.cfg (.l1 j)).geometry.lineBase addr) addr handle
        k) Q E s₁ := by
    have htag : (H.cfg (.l1 j)).geometry.tag addr = (H.cfg (.l1 j)).geometry.tag a := by
      rw [← hbase, Geometry.tag_lineBase]
    refine .step (wp_runIf_pos ⟨rfl, H.writeAllocate _⟩ ?_)
    rw [hbase, htag]
    refine wp_setNewLine_of_invalid h₁ (by simp) hway₁ hindex habsent₁ hvacant fun s₂ h₂ => ?_
    exact hk v₁ s₂ (h₂.weaken (by simp)) hinv₁ habsent₁
  rcases h.victim hway with hvacant | ⟨w, hw, hvalid, hwp⟩
  · refine .step (.step (wp_getLine_any (.step (wp_runIf_neg (by simp [hvacant]) ?_))))
    refine .step (wp_getLine_any (wp_runIf_neg (by simp [hvacant]) ?_))
    exact hnew h hinv hway habsent hvacant
  · have hwa : a ≠ w := fun heq => hvalid (heq ▸ habsent)
    have hp := Set.mem_insert (CacheRef.l1 j, p, w) ∅
    refine .step (.step (wp_getLine hwp hp fun line haddr hst => .step ?_))
    rw [haddr]
    refine wp_runIf_pos ⟨rfl, by rwa [hst], H.writeBack _⟩ ?_
    refine .mono (Q := fun _ s₁ => ∃ v₁, H.Sees (insert (.l1 j, p, w) ∅) v₁ s₁ ∧ H.InvWith I v₁ ∧
      v₁.st (.l1 j) w = .invalid ∧ ∀ b, b ≠ w → v₁.st (.l1 j) b = v.st (.l1 j) b) ?_ ?_
    · cases hx : v.st (.l1 j) w with
      | invalid => exact absurd hx hvalid
      | shared =>
        rw [hst, hx]
        exact wp_request hserve .dropShared hp hwp (by simp) (by simp) hw hinv hx
      | modified =>
        rw [hst, hx]
        exact wp_request hserve .dropModified hp hwp (by simp) (by simp) hw hinv hx
    · rintro - s₁ ⟨v₁, h₁, hinv₁, hx₁, hframe⟩
      have hvacant : ((s₁.cache (.l1 j)).line p).state = .invalid := (h₁.line_state hp).trans hx₁
      refine .step (wp_getLine_any (wp_runIf_neg (by simp [hvacant]) ?_))
      exact hnew (h₁.weaken (by simp)) hinv₁ (h₁.owns _ _ _ hp).way ((hframe a hwa).trans habsent) hvacant

/-- An address has the same base in every cache of the hierarchy. -/
theorem lineBase_eq (r : CacheRef n) (addr : ℕ) :
    (H.cfg r).geometry.lineBase addr = H.lineOf addr := by
  rw [Geometry.lineBase, Geometry.offset_eq, offsetBits_eq, lineOf]

/-- One activation of `accessCpuCache` for a CPU access keeps the invariant and passes on what lies
behind the line. -/
theorem accessCpuLine_spec (hserve : H.Serves E I home) (write : Bool) {size addr initiatorId handle : ℕ}
    (ha : H.IsLine (H.lineOf addr)) (h : H.Sees ∅ v s) (hinv : H.InvWith I v) :
    wp (accessCpuLine H.toPlatform (H.l1PortsOver home j) (.l1 j) (if write then .write else .read) size addr
        initiatorId handle)
      (fun res s' => (∃ v', H.Sees ∅ v' s' ∧ H.InvWith I v') ∧
        res = if 2 ^ H.lineBits < add64 (sub64 addr (H.lineOf addr)) size then
          some (sub64 (2 ^ H.lineBits) (sub64 addr (H.lineOf addr))) else none) E s := by
  obtain ⟨a, hbase⟩ : ∃ a, a = H.lineOf addr := ⟨_, rfl⟩
  have hbase' : (H.cfg (.l1 j)).geometry.lineBase addr = a := by rw [lineBase_eq, hbase]
  rw [← hbase] at ha ⊢
  have hindex : (H.cfg (.l1 j)).geometry.index addr = (H.cfg (.l1 j)).geometry.index a := by
    rw [← hbase', Geometry.index_lineBase]
  have htag : (H.cfg (.l1 j)).geometry.tag addr = (H.cfg (.l1 j)).geometry.tag a := by
    rw [← hbase', Geometry.tag_lineBase]
  -- The part after the allocation, for a line that the L1 has or has allocated.
  have hrest {hit : Bool} {p : LineRef} {v₁ s₁} (h₁ : H.Sees {(.l1 j, p, a)} v₁ s₁) (hinv₁ : H.InvWith I v₁)
      (hhit : hit = true ↔ v₁.st (.l1 j) a ≠ .invalid) :
      wp (do
        let line ← getLine (.l1 j) p
        check H.toPlatform ((H.cfg (.l1 j)).geometry.lineBase addr = line.address)
        cpuAllocating H.toPlatform (H.l1PortsOver home j) (.l1 j) (if write then .write else .read) hit p addr
        return if (H.cfg (.l1 j)).geometry.cacheLineSize < add64 (sub64 addr line.address) size then
          some (sub64 (H.cfg (.l1 j)).geometry.cacheLineSize (sub64 addr line.address)) else none)
        (fun res s' => (∃ v', H.Sees ∅ v' s' ∧ H.InvWith I v') ∧
          res = if 2 ^ H.lineBits < add64 (sub64 addr a) size then
            some (sub64 (2 ^ H.lineBits) (sub64 addr a)) else none) E s₁ := by
    have hp := Set.mem_singleton (CacheRef.l1 j, p, a)
    refine .step (wp_getLine h₁ hp fun line haddr _ => .step (wp_check (.inl ?_) ?_))
    · rw [hbase', haddr]
    rw [haddr, H.lineSize_eq]
    refine .bind (cpuAllocating_spec hserve write hp hbase' h₁ (by simp) (by simp) ha hinv₁ hhit) ?_
    exact fun _ s₂ ⟨v₂, h₂, hinv₂⟩ => ⟨⟨v₂, h₂.weaken (Set.empty_subset _), hinv₂⟩, rfl⟩
  refine .step (wp_lookup h ha hindex htag (fun hf => hserve.stops _ _ ⟨_, hf⟩) (fun p s₁ hst h₁ => ?_)
    fun p s₁ hst h₁ hway hidx => ?_)
  · refine .step (wp_notifyVictim h₁ fun s₂ _ h₂ => ?_)
    refine .step (wp_getLine h₂ (Set.mem_insert _ _) fun line haddr _ => .step (wp_check (.inl (.inr ?_)) ?_))
    · rw [haddr, hbase, lineOf, H.lineSize_eq]
      have hlt := Nat.mod_lt addr (Nat.two_pow_pos H.lineBits)
      have hle := Nat.mod_le addr (2 ^ H.lineBits)
      omega
    have hgo := @hrest true p _ _ (h₂.weaken (by simp)) hinv (by simpa using hst)
    cases write with
    | false =>
      refine .step (wp_runIf_neg (by simp) (.step (.step (wp_getLine_any (.step (wp_runIf_neg (by simp) ?_))))))
      exact .step (wp_getLine_any (wp_runIf_neg (by simp) (.step (wp_runIf_neg (by simp) hgo))))
    | true =>
      refine .step (wp_runIf_neg (by simp) (.step (.step (wp_getLine_any (.step (wp_runIf_neg (by simp) ?_))))))
      exact .step (wp_getLine_any (wp_runIf_neg (by simp) (.step (wp_runIf_neg (by simp) hgo))))
  · refine .step (wp_notifyVictim h₁ fun s₂ hs₂ h₂ => ?_)
    refine .step (wp_getLine_any (.step (wp_check (.inl (.inl rfl)) ?_)))
    have hway₂ : (s₂.cache (.l1 j)).Way p := by rwa [hs₂]
    cases write with
    | false =>
      refine .step (wp_runIf_neg (by simp) (wp_l1Allocate hserve hbase' h₂ hinv hway₂ hidx hst ?_))
      exact fun v₁ s₃ h₃ hinv₁ hst₁ => hrest h₃ hinv₁ (by simp [hst₁])
    | true =>
      refine .step (wp_runIf_neg (by simp) (wp_l1Allocate hserve hbase' h₂ hinv hway₂ hidx hst ?_))
      exact fun v₁ s₃ h₃ hinv₁ hst₁ => hrest h₃ hinv₁ (by simp [hst₁])

/-- The bytes of a line from an address on, and the rest of an access that goes beyond them. -/
theorem accessSize_spec {L size addr : ℕ} (hsize : size < 2 ^ 64) (haddr : addr < 2 ^ 64)
    (hL : 0 < L) (hmore : L < add64 (sub64 addr (addr - addr % L)) size) :
    sub64 L (sub64 addr (addr - addr % L)) = L - addr % L ∧ L - addr % L < size ∧
      sub64 size (L - addr % L) = size - (L - addr % L) := by
  have hlt := Nat.mod_lt addr hL
  have hle := Nat.mod_le addr L
  have hused : sub64 addr (addr - addr % L) = addr % L := by
    unfold sub64
    omega
  rw [hused] at hmore ⊢
  unfold add64 at hmore
  unfold sub64
  omega

/-- A CPU access of any size keeps the invariant. -/
theorem accessCpuCache_spec (hserve : H.Serves E I home) (write : Bool) {initiatorId handle : ℕ} {fuel size addr : ℕ}
    (hfuel : size < fuel) (hsize : size < 2 ^ 64) (haddr : addr < 2 ^ 64)
    (hlines : ∀ k ≤ size - 1, H.IsLine (H.lineOf (add64 addr k))) (h : H.Sees ∅ v s)
    (hinv : H.InvWith I v) :
    wp (accessCpuCache H.toPlatform (H.l1PortsOver home j) (.l1 j) (if write then .write else .read) initiatorId
        handle fuel size addr)
      (fun _ s' => ∃ v', H.Sees ∅ v' s' ∧ H.InvWith I v') E s := by
  induction fuel generalizing size addr v s with
  | zero => omega
  | succ fuel ih =>
    have hline : H.IsLine (H.lineOf addr) := by
      have := hlines 0 (Nat.zero_le _)
      rwa [add64, Nat.add_zero, Nat.mod_eq_of_lt haddr] at this
    refine .bind (accessCpuLine_spec hserve write hline h hinv) ?_
    rintro res s₁ ⟨⟨v₁, h₁, hinv₁⟩, hres⟩
    split at hres
    · rename_i hmore
      obtain ⟨haccess, hlt, hrest⟩ := accessSize_spec hsize haddr (Nat.two_pow_pos _) hmore
      rw [lineOf, haccess] at hres
      subst hres
      dsimp only
      rw [hrest]
      refine ih (by omega) (by omega) (Nat.mod_lt _ (by positivity)) (fun k hk => ?_) h₁ hinv₁
      have hadd (m : ℕ) : add64 (add64 addr m) k = add64 addr (m + k) := by
        unfold add64
        omega
      rw [hadd]
      exact hlines _ (by omega)
    · subst hres
      exact ⟨v₁, h₁, hinv₁⟩

/-- One CPU access keeps the invariant. -/
theorem cpuAccess_spec (hserve : H.Serves E I home) {x : CpuAccess n} (hx : H.Fits x) (h : H.Sees ∅ v s) (hinv : H.InvWith I v) :
    wp (H.cpuAccessOver home x) (fun _ s' => ∃ v', H.Sees ∅ v' s' ∧ H.InvWith I v') E s :=
  accessCpuCache_spec hserve x.write (Nat.lt_succ_self _) hx.size_lt hx.addr_lt hx.line h hinv

/-- A run keeps the invariant. -/
theorem runOver_spec (hserve : H.Serves E I home) {xs : List (CpuAccess n)} (hxs : ∀ x ∈ xs, H.Fits x)
    (h : H.Sees ∅ v s) (hinv : H.InvWith I v) :
    wp (H.runOver home xs) (fun _ s' => ∃ v', H.Sees ∅ v' s' ∧ H.InvWith I v') E s := by
  refine .mono (wp_forM (H.cpuAccessOver home) (fun rest s' => (∀ x ∈ rest, H.Fits x) ∧
    ∃ v', H.Sees ∅ v' s' ∧ H.InvWith I v') ?_ ⟨hxs, v, h, hinv⟩) fun _ _ h => h.2
  rintro x rest s' ⟨hfits, v', h', hinv⟩
  refine .mono (cpuAccess_spec hserve (hfits x List.mem_cons_self) h' hinv) fun _ s'' h'' => ⟨?_, h''⟩
  exact fun y hy => hfits y (List.mem_cons_of_mem _ hy)

/-- The home answers the requests of the nodes. -/
theorem serves_toHome : H.Serves H.Stops (fun v => ∀ b, H.HomeInv v b) H.toHome where
  stops _ _ h := h
  node hl hinv b := hl.homeInv (hinv b)
  write howned hinv b := (hinv b).cpuWrite howned
  serve hreq h hfree ha hinv hask :=
    .mono (accessCoherentHome_spec hreq h hfree ha hinv hask) fun _ _ ⟨v', h', hans, _⟩ =>
      ⟨v', h', hans, hans.inv⟩

end Hierarchy

end Vpsim.Memory
