import Vpsim.Memory.CacheBase

/-!
# Sound caches

A cache is used through the state it has for each line address. A sound cache stores every
valid line in the set and under the tag of its address, at most once, so that the state of an
address is well defined and a lookup finds exactly the line it is asked for. Soundness needs
the addresses in use to be told apart by index and stored tag.
-/

namespace Vpsim.Memory

/-- Addresses that satisfy `P` are told apart by their index and their stored tag. -/
def Distinct (g : Geometry) (P : ℕ → Prop) : Prop :=
  ∀ x y, P x → P y → g.index x = g.index y → g.tag x % wordSize = g.tag y % wordSize → x = y

namespace Cache

/-- The state that a cache has for a line address. -/
def stateOf (g : Geometry) (c : Cache) (a : ℕ) : CoherenceState :=
  match (c.sets (g.index a)).findWay fun l => l.address = a ∧ l.Valid with
  | some way => (c.line ⟨g.index a, way⟩).state
  | none => .invalid

/-- The ways of the set of a place. -/
def Way (c : Cache) (p : LineRef) : Prop := p.way < (c.sets p.index).associativity

instance (c : Cache) (p : LineRef) : Decidable (c.Way p) := inferInstanceAs (Decidable (_ < _))

/-- Every valid line stands in the set and under the tag of its address, and at most once. -/
structure WF (cfg : CacheConfig) (P : ℕ → Prop) (c : Cache) : Prop where
  policy : ∀ i, (c.sets i).policy = cfg.replPolicy
  slot : ∀ p, c.Way p → (c.line p).Valid → P (c.line p).address ∧
    p.index = cfg.geometry.index (c.line p).address ∧
    (c.line p).tag = cfg.geometry.tag (c.line p).address % wordSize
  unique : ∀ p q, c.Way p → c.Way q → p.index = q.index → (c.line p).Valid → (c.line q).Valid →
    (c.line p).address = (c.line q).address → p = q

/-- The place `p` carries the address `a`, and no other place holds it. -/
structure Owns (g : Geometry) (c : Cache) (p : LineRef) (a : ℕ) : Prop where
  way : c.Way p
  index : p.index = g.index a
  address : (c.line p).address = a
  tag : (c.line p).tag = g.tag a % wordSize
  only : ∀ q, c.Way q → q.index = p.index → (c.line q).Valid → (c.line q).address = a → q = p

variable {g : Geometry} {cfg : CacheConfig} {P : ℕ → Prop} {c c' : Cache} {p q : LineRef} {a b : ℕ}

/-- An empty cache is sound. -/
theorem wf_init : (Cache.init cfg).WF cfg P where
  policy _ := rfl
  slot _ _ hv := absurd rfl hv
  unique _ _ _ _ _ hv := absurd rfl hv

/-- The state of an address is the state of the place that carries it. -/
theorem Owns.stateOf_eq (h : c.Owns g p a) : c.stateOf g a = (c.line p).state := by
  obtain ⟨i, w⟩ := p
  obtain rfl : i = g.index a := h.index
  unfold stateOf
  cases hfind : (c.sets (g.index a)).findWay fun l => l.address = a ∧ l.Valid with
  | some v =>
    obtain ⟨hv, haddr, hvalid⟩ := CacheSet.findWay_eq_some hfind
    change (c.line ⟨g.index a, v⟩).state = _
    rw [h.only ⟨g.index a, v⟩ hv rfl hvalid haddr]
  | none =>
    have hinvalid := CacheSet.findWay_eq_none hfind h.way
    by_contra hne
    exact hinvalid ⟨h.address, fun hs => hne hs.symm⟩

/-- An address whose state is invalid is held nowhere. -/
theorem not_valid_of_stateOf (h : c.stateOf g a = .invalid) (hq : c.Way q)
    (hindex : q.index = g.index a) (haddr : (c.line q).address = a) : ¬ (c.line q).Valid := by
  intro hvalid
  obtain ⟨i, w⟩ := q
  obtain rfl : i = g.index a := hindex
  unfold stateOf at h
  cases hfind : (c.sets (g.index a)).findWay fun l => l.address = a ∧ l.Valid with
  | some v =>
    rw [hfind] at h
    exact (CacheSet.findWay_eq_some hfind).2.2 h
  | none => exact CacheSet.findWay_eq_none hfind hq ⟨haddr, hvalid⟩

/-- A valid line of a sound cache is carried by its place. -/
theorem WF.owns (h : c.WF cfg P) (hp : c.Way p) (hvalid : (c.line p).Valid) :
    c.Owns cfg.geometry p (c.line p).address := by
  obtain ⟨-, hindex, htag⟩ := h.slot p hp hvalid
  exact ⟨hp, hindex, rfl, htag, fun q hq hi hv ha => h.unique q p hq hp hi hv hvalid ha⟩

/-- A valid line of a sound cache gives its address its state. -/
theorem WF.stateOf_line (h : c.WF cfg P) (hp : c.Way p) (hvalid : (c.line p).Valid) :
    c.stateOf cfg.geometry (c.line p).address = (c.line p).state :=
  (h.owns hp hvalid).stateOf_eq

/-- The state of an address is that of some way with its line, if it is a valid one. -/
theorem WF.exists_line_iff (h : c.WF cfg P) {x : CoherenceState} (hx : x ≠ .invalid) :
    (∃ p : LineRef, p.index < cfg.geometry.nbSets ∧ c.Way p ∧ (c.line p).address = a ∧ (c.line p).state = x) ↔
      c.stateOf cfg.geometry a = x := by
  constructor
  · rintro ⟨p, -, hway, rfl, rfl⟩
    exact h.stateOf_line hway hx
  · intro hst
    unfold stateOf at hst
    cases hfind : (c.sets (cfg.geometry.index a)).findWay fun l => l.address = a ∧ l.Valid with
    | none =>
      rw [hfind] at hst
      exact absurd hst.symm hx
    | some way =>
      rw [hfind] at hst
      obtain ⟨hway, haddr, -⟩ := CacheSet.findWay_eq_some hfind
      exact ⟨⟨_, way⟩, cfg.accepted.index_lt a, hway, haddr, hst⟩

/-- Two caches with the same lines and directories. -/
structure SameLines (c c' : Cache) : Prop where
  sets : ∀ i, CacheSet.SameLines (c.sets i) (c'.sets i)
  directory : c'.directory = c.directory

/-- Replacing one set by one with the same lines leaves the lines of the cache. -/
theorem SameLines.of_set {i : ℕ} {set' : CacheSet} (h : CacheSet.SameLines (c.sets i) set') :
    SameLines c { c with sets := Function.update c.sets i set' } := by
  refine ⟨fun j => ?_, rfl⟩
  dsimp only
  by_cases hj : j = i
  · rw [hj, Function.update_self]
    exact h
  · rw [Function.update_of_ne hj]
    exact ⟨rfl, rfl, fun _ => rfl⟩

namespace SameLines

variable (h : SameLines c c')
include h

theorem line (p : LineRef) : c'.line p = c.line p := (h.sets p.index).line p.way

theorem way_iff : c'.Way p ↔ c.Way p := by
  unfold Way
  rw [(h.sets p.index).associativity]

theorem wf (hc : c.WF cfg P) : c'.WF cfg P where
  policy i := by rw [(h.sets i).policy, hc.policy]
  slot p hp hv := by
    rw [h.line] at hv ⊢
    exact hc.slot p (h.way_iff.1 hp) hv
  unique p q hp hq hi := by
    rw [h.line, h.line]
    exact hc.unique p q (h.way_iff.1 hp) (h.way_iff.1 hq) hi

theorem owns (ho : c.Owns g p a) : c'.Owns g p a where
  way := h.way_iff.2 ho.way
  index := ho.index
  address := by rw [h.line, ho.address]
  tag := by rw [h.line, ho.tag]
  only q hq hi := by
    rw [h.line]
    exact ho.only q (h.way_iff.1 hq) hi

theorem stateOf_eq (a : ℕ) : c'.stateOf g a = c.stateOf g a := by
  unfold stateOf CacheSet.findWay
  have hline (i : ℕ) : (c'.sets (g.index a)).line i = (c.sets (g.index a)).line i :=
    (h.sets _).line i
  simp only [(h.sets _).associativity, hline, h.line]

end SameLines

/-- Changing one line of a cache leaves the others. -/
theorem modifyLine_line (c : Cache) (p q : LineRef) (f : CacheLine → CacheLine) :
    (c.modifyLine p f).line q = if q = p then f (c.line p) else c.line q := by
  obtain ⟨i, v⟩ := p
  obtain ⟨j, w⟩ := q
  unfold modifyLine line
  by_cases hi : j = i
  · subst hi
    by_cases hw : w = v
    · subst hw
      simp
    · simp [CacheSet.modifyLine_line_of_ne _ f hw, hw]
  · simp [hi]

theorem modifyLine_way_iff (c : Cache) (p : LineRef) (f : CacheLine → CacheLine) :
    (c.modifyLine p f).Way q ↔ c.Way q := by
  unfold modifyLine Way
  by_cases hi : q.index = p.index
  · simp [hi]
  · simp [hi]

theorem modifyLine_policy (c : Cache) (p : LineRef) (f : CacheLine → CacheLine) (i : ℕ) :
    ((c.modifyLine p f).sets i).policy = (c.sets i).policy := by
  unfold modifyLine
  by_cases hi : i = p.index
  · subst hi
    simp [CacheSet.modifyLine]
  · simp [hi]

/-- The state of an address that the changed line carries neither before nor after stays. -/
theorem stateOf_modifyLine_of_ne (f : CacheLine → CacheLine)
    (hbefore : (c.line p).Valid → (c.line p).address ≠ a)
    (hafter : (f (c.line p)).Valid → (f (c.line p)).address ≠ a) :
    (c.modifyLine p f).stateOf g a = c.stateOf g a := by
  have hpred (q : LineRef) :
      (((c.modifyLine p f).line q).address = a ∧ ((c.modifyLine p f).line q).Valid) ↔
        ((c.line q).address = a ∧ (c.line q).Valid) := by
    rw [modifyLine_line]
    split
    · rename_i h
      subst h
      exact ⟨fun h => absurd h.1 (hafter h.2), fun h => absurd h.1 (hbefore h.2)⟩
    · exact Iff.rfl
  have hassoc : ((c.modifyLine p f).sets (g.index a)).associativity =
      (c.sets (g.index a)).associativity := by
    unfold modifyLine
    by_cases hi : g.index a = p.index
    · simp [hi]
    · simp [hi]
  have hfind : ((c.modifyLine p f).sets (g.index a)).findWay (fun l => l.address = a ∧ l.Valid) =
      (c.sets (g.index a)).findWay fun l => l.address = a ∧ l.Valid := by
    unfold CacheSet.findWay
    rw [hassoc]
    congr 1
    funext i
    exact decide_eq_decide.2 (hpred ⟨g.index a, i⟩)
  unfold stateOf
  rw [hfind]
  cases h : (c.sets (g.index a)).findWay fun l => l.address = a ∧ l.Valid with
  | none => rfl
  | some w =>
    have hw := (CacheSet.findWay_eq_some h).2
    have hne : (⟨g.index a, w⟩ : LineRef) ≠ p := by
      rintro rfl
      exact hbefore hw.2 hw.1
    change ((c.modifyLine p f).line _).state = _
    rw [modifyLine_line, if_neg hne]

/-- Replacing a line keeps a cache sound if the new line is invalid, or stands in the right place
and has no other copy. -/
theorem WF.modifyLine (h : c.WF cfg P) (f : CacheLine → CacheLine)
    (hnew : (f (c.line p)).Valid → c.Owns cfg.geometry p (f (c.line p)).address ∧
      P (f (c.line p)).address ∧ (f (c.line p)).tag = (c.line p).tag) :
    (c.modifyLine p f).WF cfg P where
  policy i := by rw [modifyLine_policy, h.policy]
  slot q hq hv := by
    rw [modifyLine_line] at hv ⊢
    rw [modifyLine_way_iff] at hq
    split at hv
    · rename_i heq
      obtain ⟨ho, hP, htag⟩ := hnew hv
      rw [if_pos heq, heq]
      exact ⟨hP, ho.index, htag.trans ho.tag⟩
    · rename_i hne
      rw [if_neg hne]
      exact h.slot q hq hv
  unique q r hq hr hi hvq hvr ha := by
    rw [modifyLine_line] at hvq hvr ha
    rw [modifyLine_line] at ha
    rw [modifyLine_way_iff] at hq hr
    split at hvq <;> split at hvr <;> rename_i hqp hrp
    · rw [hqp, hrp]
    · rw [if_pos hqp, if_neg hrp] at ha
      obtain ⟨ho, -, -⟩ := hnew hvq
      rw [hqp] at hi ⊢
      exact (ho.only r hr hi.symm hvr ha.symm).symm
    · rw [if_neg hqp, if_pos hrp] at ha
      obtain ⟨ho, -, -⟩ := hnew hvr
      rw [hrp] at hi ⊢
      exact ho.only q hq hi hvq ha
    · rw [if_neg hqp, if_neg hrp] at ha
      exact h.unique q r hq hr hi hvq hvr ha

/-- The place of a valid line under the index and the stored tag of `a` carries `a`. -/
theorem WF.owns_of_tag (h : c.WF cfg P) (hdistinct : Distinct cfg.geometry P) (ha : P a)
    (hp : c.Way p) (hindex : p.index = cfg.geometry.index a) (hvalid : (c.line p).Valid)
    (htag : (c.line p).tag = cfg.geometry.tag a % wordSize) :
    c.Owns cfg.geometry p a ∧ c.stateOf cfg.geometry a ≠ .invalid := by
  obtain ⟨hP, hindex', htag'⟩ := h.slot p hp hvalid
  have haddr : (c.line p).address = a :=
    hdistinct _ _ hP ha (hindex'.symm.trans hindex) (htag'.symm.trans htag)
  have ho := h.owns hp hvalid
  rw [haddr] at ho
  refine ⟨ho, ?_⟩
  rw [ho.stateOf_eq]
  exact hvalid

/-- An address is not held if no valid line of its set has its stored tag. -/
theorem WF.absent_of_tag (h : c.WF cfg P)
    (hnone : ∀ way < (c.sets (cfg.geometry.index a)).associativity,
      (c.line ⟨cfg.geometry.index a, way⟩).tag = cfg.geometry.tag a % wordSize →
        ¬ (c.line ⟨cfg.geometry.index a, way⟩).Valid) : c.stateOf cfg.geometry a = .invalid := by
  by_contra hvalid
  unfold stateOf at hvalid
  cases hfind : (c.sets (cfg.geometry.index a)).findWay fun l => l.address = a ∧ l.Valid with
  | none =>
    rw [hfind] at hvalid
    exact hvalid rfl
  | some w =>
    obtain ⟨hw, haddr, hv⟩ := CacheSet.findWay_eq_some hfind
    obtain ⟨-, -, htag⟩ := h.slot ⟨cfg.geometry.index a, w⟩ hw hv
    refine hnone w hw (htag.trans ?_) hv
    change cfg.geometry.tag ((c.sets (cfg.geometry.index a)).line w).address % wordSize = _
    rw [haddr]

/-- An access to a set of a sound cache changes no line. On a hit it returns the place that
carries the address; on a miss the cache does not have the address. -/
theorem WF.accessSet (h : c.WF cfg P) (hdistinct : Distinct cfg.geometry P) (ha : P a) {hit : Bool}
    {way : ℕ} {set' : CacheSet}
    (hacc : (c.sets (cfg.geometry.index a)).accessSet (cfg.geometry.tag a % wordSize) =
      some ((hit, way), set')) :
    SameLines c { c with sets := Function.update c.sets (cfg.geometry.index a) set' } ∧
      c.Way ⟨cfg.geometry.index a, way⟩ ∧
      (if hit then c.Owns cfg.geometry ⟨cfg.geometry.index a, way⟩ a ∧
        c.stateOf cfg.geometry a ≠ .invalid else c.stateOf cfg.geometry a = .invalid) := by
  obtain ⟨hsame, hway, hres⟩ := CacheSet.accessSet_spec hacc
  refine ⟨.of_set hsame, hway, ?_⟩
  cases hit with
  | true => exact h.owns_of_tag (p := ⟨_, way⟩) hdistinct ha hway rfl hres.2 hres.1
  | false =>
    rw [if_neg (by simp)] at hres ⊢
    exact h.absent_of_tag hres

/-- What a lookup finds: whether it hits, and the place of the line or of the victim. -/
def find (g : Geometry) (c : Cache) (addr : ℕ) : Bool × LineRef :=
  match (c.sets (g.index addr)).locateLineInSet (g.tag addr % wordSize) with
  | some way => (true, ⟨g.index addr, way⟩)
  | none => (false, ⟨g.index addr, (c.sets (g.index addr)).nextVictim⟩)

/-- The place that a lookup finds is a way of the set of its address. -/
theorem find_way (g : Geometry) (c : Cache) (addr : ℕ) :
    c.Way (c.find g addr).2 ∧ (c.find g addr).2.index = g.index addr := by
  unfold find
  cases h : (c.sets (g.index addr)).locateLineInSet (g.tag addr % wordSize) with
  | some way => exact ⟨(CacheSet.findWay_eq_some h).1, rfl⟩
  | none => exact ⟨(c.sets (g.index addr)).victim_lt, rfl⟩

/-- A lookup that hits finds a valid line. -/
theorem find_valid {addr : ℕ} (h : (c.find g addr).1 = true) : (c.line (c.find g addr).2).Valid := by
  unfold find at h ⊢
  cases hl : (c.sets (g.index addr)).locateLineInSet (g.tag addr % wordSize) with
  | some way => exact (CacheSet.findWay_eq_some hl).2.2
  | none =>
    rw [hl] at h
    cases h

/-- Every lookup in an empty cache misses. -/
theorem find_init (g : Geometry) (addr : ℕ) : ((Cache.init cfg).find g addr).1 = false := by
  unfold find
  cases hl : ((Cache.init cfg).sets (g.index addr)).locateLineInSet (g.tag addr % wordSize) with
  | some way => exact absurd rfl (CacheSet.findWay_eq_some hl).2.2
  | none => rfl

/-- A lookup in a sound cache finds the line of its address if the cache has it. -/
theorem WF.find (h : c.WF cfg P) (hdistinct : Distinct cfg.geometry P) (ha : P a) {addr : ℕ}
    (hindex : cfg.geometry.index addr = cfg.geometry.index a)
    (htag : cfg.geometry.tag addr = cfg.geometry.tag a) :
    if (c.find cfg.geometry addr).1 then c.Owns cfg.geometry (c.find cfg.geometry addr).2 a ∧
      c.stateOf cfg.geometry a ≠ .invalid else c.stateOf cfg.geometry a = .invalid := by
  unfold Cache.find
  rw [hindex, htag]
  cases hl : (c.sets (cfg.geometry.index a)).locateLineInSet (cfg.geometry.tag a % wordSize) with
  | some way =>
    obtain ⟨hway, htag, hvalid⟩ := CacheSet.findWay_eq_some hl
    exact h.owns_of_tag (p := ⟨_, way⟩) hdistinct ha hway rfl hvalid htag
  | none =>
    rw [if_neg (by simp)]
    exact h.absent_of_tag fun way hway ht hv => CacheSet.findWay_eq_none hl hway ⟨ht, hv⟩

section SetState

variable (x : CoherenceState)

/-- Changing the state of a line keeps the cache sound. -/
theorem WF.setState (h : c.WF cfg P) (ho : c.Owns cfg.geometry p a) (hP : P a) :
    (c.modifyLine p fun l => l.setState x).WF cfg P := by
  refine h.modifyLine _ fun _ => ?_
  change c.Owns cfg.geometry p (c.line p).address ∧ P (c.line p).address ∧ _
  rw [ho.address]
  exact ⟨ho, hP, rfl⟩

/-- Changing the state of a line changes the state of the address it carries only. -/
theorem Owns.stateOf_setState (ho : c.Owns g p a) (b : ℕ) :
    (c.modifyLine p fun l => l.setState x).stateOf g b = if b = a then x else c.stateOf g b := by
  split
  · rename_i heq
    rw [heq, Owns.stateOf_eq (p := p), modifyLine_line, if_pos rfl]
    · rfl
    · exact
        { way := (modifyLine_way_iff c p _).2 ho.way
          index := ho.index
          address := by rw [modifyLine_line, if_pos rfl]; exact ho.address
          tag := by rw [modifyLine_line, if_pos rfl]; exact ho.tag
          only := fun q hq hi hv ha => by
            by_contra hne
            rw [modifyLine_line, if_neg hne] at hv ha
            exact hne (ho.only q ((modifyLine_way_iff c p _).1 hq) hi hv ha) }
  · rename_i hne
    refine stateOf_modifyLine_of_ne _ (fun _ => ?_) fun _ => ?_
    · rw [ho.address]
      exact fun h => hne h.symm
    · change (c.line p).address ≠ b
      rw [ho.address]
      exact fun h => hne h.symm

/-- A place that carries an address still does after a change of state of this or of another
place that carries a different address. -/
theorem Owns.setState (ho : c.Owns g p a) (hq : c.Owns g q b) (hne : b = a → q = p) :
    (c.modifyLine p fun l => l.setState x).Owns g q b := by
  have hline (r : LineRef) : ((c.modifyLine p fun l => l.setState x).line r).address =
      (c.line r).address ∧ ((c.modifyLine p fun l => l.setState x).line r).tag = (c.line r).tag := by
    rw [modifyLine_line]
    split
    · rename_i heq
      rw [heq]
      exact ⟨rfl, rfl⟩
    · exact ⟨rfl, rfl⟩
  refine ⟨(modifyLine_way_iff c p _).2 hq.way, hq.index, ?_, ?_, fun r hr hi hv ha => ?_⟩
  · rw [(hline q).1, hq.address]
  · rw [(hline q).2, hq.tag]
  · rw [(hline r).1] at ha
    rw [modifyLine_way_iff] at hr
    by_cases heq : r = p
    · rw [heq, ho.address] at ha
      rw [heq, hne ha.symm]
    · rw [modifyLine_line, if_neg heq] at hv
      exact hq.only r hr hi hv ha

end SetState

section SetNewLine

variable {t handle : ℕ}

/-- A new line, still invalid, keeps the cache sound. -/
theorem WF.setNewLine (h : c.WF cfg P) :
    (c.modifyLine p fun l => l.setNewLine a t handle).WF cfg P :=
  h.modifyLine _ fun hv => absurd rfl hv

/-- A new line carries its address if no other place holds it. -/
theorem Owns.of_setNewLine (hp : c.Way p) (hindex : p.index = g.index a)
    (habsent : c.stateOf g a = .invalid) :
    (c.modifyLine p fun l => l.setNewLine a (g.tag a) handle).Owns g p a where
  way := (modifyLine_way_iff c p _).2 hp
  index := hindex
  address := by rw [modifyLine_line, if_pos rfl]; rfl
  tag := by rw [modifyLine_line, if_pos rfl]; rfl
  only q hq hi hv ha := by
    by_contra hne
    rw [modifyLine_line, if_neg hne] at hv ha
    rw [modifyLine_way_iff] at hq
    exact not_valid_of_stateOf habsent hq (hi.trans hindex) ha hv

/-- A new line in an invalid place changes the state of no address. -/
theorem stateOf_setNewLine_of_invalid (hp : ¬ (c.line p).Valid) (b : ℕ) :
    (c.modifyLine p fun l => l.setNewLine a t handle).stateOf g b = c.stateOf g b :=
  stateOf_modifyLine_of_ne _ (fun hv => absurd hv hp) fun hv => absurd rfl hv

/-- A new line in a valid place takes the old address out of the cache. -/
theorem Owns.stateOf_setNewLine {v : ℕ} (ho : c.Owns g p v) (b : ℕ) :
    (c.modifyLine p fun l => l.setNewLine a t handle).stateOf g b =
      if b = v then .invalid else c.stateOf g b := by
  split
  · rename_i heq
    rw [heq]
    by_contra hne
    unfold stateOf at hne
    cases hfind : ((c.modifyLine p fun l => l.setNewLine a t handle).sets (g.index v)).findWay
        fun l => l.address = v ∧ l.Valid with
    | none =>
      rw [hfind] at hne
      exact hne rfl
    | some w =>
      obtain ⟨hw, haddr, hvalid⟩ := CacheSet.findWay_eq_some hfind
      change ((c.modifyLine p fun l => l.setNewLine a t handle).line ⟨g.index v, w⟩).address = v at haddr
      change ((c.modifyLine p fun l => l.setNewLine a t handle).line ⟨g.index v, w⟩).Valid at hvalid
      rw [modifyLine_line] at haddr hvalid
      split at hvalid
      · exact hvalid rfl
      · rename_i hq
        rw [if_neg hq] at haddr
        have hway := (modifyLine_way_iff (q := ⟨g.index v, w⟩) c p _).1 hw
        exact hq (ho.only _ hway ho.index.symm hvalid haddr)
  · rename_i hne
    refine stateOf_modifyLine_of_ne _ (fun _ => ?_) fun hv => absurd rfl hv
    rw [ho.address]
    exact fun h => hne h.symm

end SetNewLine

end Cache

end Vpsim.Memory
