import Vpsim.Lib.AgreesUntil
import Vpsim.Memory.Coherence
import Vpsim.Memory.TwoLevelSpec

/-!
# Inclusion of the upper caches

A run of accesses is watched before each transfer to the lower cache, and stops before one that replaces a line
which an upper cache has modified. A run that the watch does not stop is the run of the code, and leaves the
lines of the upper caches in the lower one.
-/

namespace Vpsim.Memory

open Vpsim.Lib

/-! ## Watched transfers -/

section Watched

variable {ι : Type} [DecidableEq ι] {pl : Platform ι} {io io' : DataPorts ι} {self : ι} {isHit : Bool} {p : LineRef}
  {mode : CoherenceCommand} {size addr accessSize initiatorId handle : ℕ}

/-- The transfers of the first ports are those of the second, or stop at an assertion. -/
structure DataPorts.AgreeUntil (io io' : DataPorts ι) : Prop where
  forwardReadData : ∀ a n, AgreesUntil .assertion (io.forwardReadData a n) (io'.forwardReadData a n)
  forwardWriteData : ∀ a n, AgreesUntil .assertion (io.forwardWriteData a n) (io'.forwardWriteData a n)
  forwardEvict : ∀ a n, AgreesUntil .assertion (io.forwardEvict a n) (io'.forwardEvict a n)
  backInvalidate : ∀ a ids, AgreesUntil .assertion (io.backInvalidate a ids) (io'.backInvalidate a ids)
  backwardRead : ∀ a n ids, AgreesUntil .assertion (io.backwardRead a n ids) (io'.backwardRead a n ids)

omit [DecidableEq ι] in
/-- Statements under a condition agree if they do. -/
theorem agreesUntil_runIf {c : Prop} [Decidable c] {x y : CacheM ι Unit} (h : AgreesUntil .assertion x y) :
    AgreesUntil .assertion (runIf c x) (runIf c y) := .ite h (.refl _)

theorem agreesUntil_nonCoherentInvalidate (h : io.AgreeUntil io') :
    AgreesUntil .assertion (nonCoherentInvalidate pl io self isHit p) (nonCoherentInvalidate pl io' self isHit p) :=
  agreesUntil_runIf (.bind (.refl _) fun _ =>
    .bind (agreesUntil_runIf (h.forwardWriteData _ _)) fun _ => .refl _)

theorem agreesUntil_nonCoherentMissRead (h : io.AgreeUntil io') :
    AgreesUntil .assertion (nonCoherentMissRead pl io self addr initiatorId)
      (nonCoherentMissRead pl io' self addr initiatorId) := by
  refine .bind (.refl _) fun _ => .bind (.refl _) fun ids => .ite ?_ ?_
  · exact .bind (h.backwardRead _ _ _) fun _ => .refl _
  · exact .bind (h.forwardReadData _ _) fun _ => .refl _

theorem agreesUntil_nonCoherentReplace (h : io.AgreeUntil io') :
    AgreesUntil .assertion (nonCoherentReplace pl io self isHit p) (nonCoherentReplace pl io' self isHit p) := by
  refine .bind (.refl _) fun line => .bind ?_ fun _ => .bind (.refl _) fun line' => .bind ?_ fun _ => ?_
  · exact agreesUntil_runIf (.bind (h.forwardWriteData _ _) fun _ => .refl _)
  · exact agreesUntil_runIf (h.forwardEvict _ _)
  · refine agreesUntil_runIf (.bind (.refl _) fun victim => .bind (.refl _) fun ids => agreesUntil_runIf ?_)
    exact .bind (h.backInvalidate _ _) fun _ => .refl _

theorem agreesUntil_nonCoherentRead (h : io.AgreeUntil io') :
    AgreesUntil .assertion (nonCoherentRead pl io self isHit p initiatorId)
      (nonCoherentRead pl io' self isHit p initiatorId) := by
  refine .bind (.refl _) fun _ => .bind (.refl _) fun line => .bind (.refl _) fun _ => .ite ?_ (.refl _)
  exact .bind (h.forwardReadData _ _) fun _ => .refl _

theorem agreesUntil_nonCoherentStore (h : io.AgreeUntil io') :
    AgreesUntil .assertion (nonCoherentStore pl io self isHit p addr accessSize)
      (nonCoherentStore pl io' self isHit p addr accessSize) := by
  refine .bind (.refl _) fun line => .ite (.bind (.refl _) fun ids => .ite (.refl _) ?_) (.ite ?_ ?_)
  · exact .bind (h.forwardReadData _ _) fun _ => .refl _
  · exact h.forwardWriteData _ _
  · exact .bind (agreesUntil_runIf (h.forwardReadData _ _)) fun _ => .refl _

theorem agreesUntil_nonCoherentWrite (h : io.AgreeUntil io') :
    AgreesUntil .assertion (nonCoherentWrite pl io self isHit p addr accessSize initiatorId)
      (nonCoherentWrite pl io' self isHit p addr accessSize initiatorId) := by
  refine .bind (.refl _) fun line => .bind (.refl _) fun _ => .bind (agreesUntil_nonCoherentStore h) fun _ => ?_
  exact .bind (.refl _) fun line' => agreesUntil_runIf (h.forwardWriteData _ _)

theorem agreesUntil_nonCoherentServe (h : io.AgreeUntil io') :
    AgreesUntil .assertion (nonCoherentServe pl io self mode isHit p addr accessSize initiatorId)
      (nonCoherentServe pl io' self mode isHit p addr accessSize initiatorId) := by
  unfold nonCoherentServe
  split
  · exact agreesUntil_nonCoherentRead h
  · exact agreesUntil_nonCoherentWrite h
  · exact .refl _
  · exact .refl _

theorem agreesUntil_nonCoherentAllocating (h : io.AgreeUntil io') :
    AgreesUntil .assertion (nonCoherentAllocating pl io self mode isHit p size addr initiatorId handle)
      (nonCoherentAllocating pl io' self mode isHit p size addr initiatorId handle) := by
  refine .bind (.refl _) fun line => .bind (.refl _) fun _ => .bind (agreesUntil_nonCoherentReplace h) fun _ => ?_
  refine .bind (.refl _) fun _ => .bind (.refl _) fun line' => .bind (.refl _) fun _ => ?_
  exact .bind (agreesUntil_nonCoherentServe h) fun _ => .refl _

theorem agreesUntil_nonCoherentAt (h : io.AgreeUntil io') :
    AgreesUntil .assertion (nonCoherentAt pl io self mode isHit p size addr initiatorId handle)
      (nonCoherentAt pl io' self mode isHit p size addr initiatorId handle) := by
  refine .ite ?_ (.ite (.refl _) (.ite ?_ ?_))
  · exact .bind (agreesUntil_nonCoherentInvalidate h) fun _ => .refl _
  · exact .bind (agreesUntil_nonCoherentMissRead h) fun _ => .refl _
  · exact agreesUntil_nonCoherentAllocating h

/-- Accesses over ports that agree do so as well. -/
theorem agreesUntil_accessNonCoherentCache (h : io.AgreeUntil io') (fuel : ℕ) :
    AgreesUntil .assertion (accessNonCoherentCache pl io self mode initiatorId handle fuel size addr)
      (accessNonCoherentCache pl io' self mode initiatorId handle fuel size addr) := by
  induction fuel generalizing size addr with
  | zero => exact .refl _
  | succ fuel ih =>
    refine .bind ?_ fun res => ?_
    · refine .bind (.refl _) fun found => .bind (.refl _) fun line => .bind (.refl _) fun _ => ?_
      exact .bind (.refl _) fun _ => agreesUntil_nonCoherentAt h
    · cases res with
      | none => exact .refl _
      | some n => exact ih

end Watched

namespace TwoLevels

variable {n : ℕ} {L : TwoLevels n} {live : Set (LevelRef n × LineRef × ℕ)} {v : View (LevelRef n)} {sh : ℕ → Finset ℕ}
  {s : State (LevelRef n)} {r : LevelRef n} {a depth : ℕ} {x : CoherenceState} {xs : List (CpuAccess n)}

/-- The run of a transfer to the lower cache is the same with the watch. -/
theorem agreesUntil_toLower {io io' : DataPorts (LevelRef n)} (h : io.AgreeUntil io') (j : Fin n)
    (mode : CoherenceCommand) (addr size : ℕ) :
    AgreesUntil .assertion (L.toLower io L.watch j mode addr size)
      (L.toLower io' (fun _ => pure ()) j mode addr size) :=
  .bind .guard fun _ => agreesUntil_accessNonCoherentCache h _

theorem agreeUntil_upperPorts {io io' : DataPorts (LevelRef n)} (h : io.AgreeUntil io') (j : Fin n) :
    (L.upperPorts io L.watch j).AgreeUntil (L.upperPorts io' (fun _ => pure ()) j) where
  forwardReadData := agreesUntil_toLower h j .read
  forwardWriteData := agreesUntil_toLower h j .write
  forwardEvict _ _ := .refl _
  backInvalidate _ _ := .refl _
  backwardRead _ _ _ := .refl _

theorem agreeUntil_lowerPorts (depth : ℕ) :
    (L.lowerPorts L.watch depth).AgreeUntil (L.lowerPorts (fun _ => pure ()) depth) := by
  induction depth with
  | zero => exact ⟨fun _ _ => .refl _, fun _ _ => .refl _, fun _ _ => .refl _, fun _ _ => .refl _, fun _ _ _ => .refl _⟩
  | succ depth ih =>
    refine ⟨fun _ _ => .refl _, fun _ _ => .refl _, fun _ _ => .refl _, fun _ _ => ?_, fun _ _ _ => .refl _⟩
    exact .forM fun j => agreesUntil_runIf (agreesUntil_accessNonCoherentCache (agreeUntil_upperPorts ih j) _)

/-- The run of the code is the watched one, as long as the watch does not stop it. -/
theorem agreesUntil_run (depth : ℕ) (xs : List (CpuAccess n)) :
    AgreesUntil .assertion (L.runWith L.watch depth xs) (L.run depth xs) :=
  .forM fun x => agreesUntil_accessNonCoherentCache (agreeUntil_upperPorts (agreeUntil_lowerPorts depth) x.cpu) _

/-! ## Runs from the empty caches -/

/-- The line addresses with small tags are told apart by every cache. -/
theorem distinct_isLine (r : LevelRef n) : Distinct (L.cfg r).geometry L.IsLine := by
  intro y z hy hz hindex htag
  rw [Nat.mod_eq_of_lt (hy.tag_lt r), Nat.mod_eq_of_lt (hz.tag_lt r)] at htag
  have haligned {w : ℕ} (hw : L.IsLine w) : 2 ^ (L.cfg r).geometry.offsetBits ∣ w := by
    rw [Geometry.offsetBits, L.lineSize_eq, log2_two_pow]
    exact hw.aligned
  exact Geometry.eq_of_index_tag (L.interleaved_le r) hy.lt hz.lt (haligned hy) (haligned hz) hindex htag

/-- The view of empty caches. -/
def emptyView : View (LevelRef n) := ⟨fun _ _ => .invalid, fun _ _ => none, []⟩

/-- Empty caches have the empty view and no sharers. -/
theorem knows_init : L.Knows ∅ emptyView (fun _ => ∅) (.init L.toPlatform) where
  sees :=
    { distinct := distinct_isLine
      wf := fun _ => Cache.wf_init
      owns := by simp
      place := by simp
      view_eq := by
        unfold State.view emptyView
        congr 1
        funext r a
        unfold Cache.stateOf
        split
        · rfl
        · rfl }
  sharers := rfl

/-- Empty caches satisfy the invariant. -/
theorem inv_empty : L.Inv emptyView fun _ => ∅ where
  present h := absurd rfl h
  listed h := by cases h
  clean h := by simp at h
  isLine h := by simp at h

/-- A watched run keeps the invariant. -/
theorem watchedRun_spec (hdepth : 0 < depth) (hxs : ∀ x ∈ xs, L.Fits x) :
    wp (L.runWith L.watch depth xs) (fun _ s' => ∃ v' sh', L.Knows ∅ v' sh' s' ∧ L.Inv v' sh') L.Stops
      (.init L.toPlatform) :=
  runWith_spec hdepth hxs knows_init inv_empty

/-- The invariant gives inclusion. -/
theorem Inv.included (h : L.Knows live v sh s) (hinv : L.Inv v sh) : L.Included s := by
  intro j a x hx hholds
  have hstate := ((h.sees.wf (.upper j)).exists_line_iff hx).1 hholds
  have hst : v.st (.upper j) a = x := (h.sees.st_eq _ a).symm.trans hstate
  have hlower : v.st .lower a ≠ .invalid := hinv.present (hst.symm ▸ hx)
  exact ⟨_, hlower, ((h.sees.wf .lower).exists_line_iff hlower).2 (h.sees.st_eq _ a)⟩

/-- A part of a run that the watch does not stop is not stopped either. -/
theorem not_stopped_part {done : List (CpuAccess n)} (hpre : done <+: xs)
    (hwatch : ∀ s, L.runWith L.watch depth xs (.init L.toPlatform) ≠ .error .assertion s) (s : State (LevelRef n)) :
    L.runWith L.watch depth done (.init L.toPlatform) ≠ .error .assertion s := by
  obtain ⟨rest, rfl⟩ := hpre
  exact fun hstop => hwatch s (forM_append_of_error hstop)

/-- Two upper caches of two lines above a lower one of one line. -/
def twoUppers : TwoLevels 2 where
  cfg
    | .upper j => Hierarchy.oneSet 2 (10 + j) Nat.two_pos false .nine .inclusive
    | .lower => { Hierarchy.oneSet 1 20 Nat.one_pos false .inclusive .nine with level := 2 }
  checks := true
  lineBits := 6
  lineSize_eq r := by cases r <;> rfl
  interleaved_le r := by cases r <;> exact Nat.le_refl 1
  writeBack r := by cases r <;> rfl
  writeAllocate r := by cases r <;> rfl
  upper_higher _ := rfl
  upper_lower _ := rfl
  lower_higher := rfl
  id_injective _ _ hij := Fin.ext (Nat.add_left_cancel hij)

/-- The state in which a run ends or stops. -/
def finalState (L : TwoLevels n) (depth : ℕ) (xs : List (CpuAccess n)) : State (LevelRef n) :=
  endState (L.run depth xs (.init L.toPlatform))

/-- One byte accesses of lines below 4 GiB are accesses of `twoUppers`. -/
theorem fits_twoUppers {x : CpuAccess 2} (hsize : x.size = 1) (haddr : x.addr < 2 ^ 32) : twoUppers.Fits x where
  size_lt := by omega
  addr_lt := by omega
  line k hk := by
    obtain rfl : k = 0 := by omega
    have hle : twoUppers.lineOf (add64 x.addr 0) ≤ x.addr := (Nat.sub_le _ _).trans (Nat.mod_le _ _)
    refine ⟨by unfold addressBits; omega, Nat.dvd_sub_mod _, fun r => ?_⟩
    calc (twoUppers.cfg r).geometry.tag (twoUppers.lineOf (add64 x.addr 0))
        ≤ twoUppers.lineOf (add64 x.addr 0) := Geometry.tag_le _
      _ < wordSize := lt_of_le_of_lt hle haddr

/-- The first of two processors. -/
def first : Fin 2 := ⟨0, Nat.zero_lt_two⟩

/-- The second of two processors. -/
def second : Fin 2 := ⟨1, Nat.one_lt_two⟩

/-- Both upper caches read a line, the first one then reads another line and the second one writes it. -/
def readsThenWrite : List (CpuAccess 2) :=
  [⟨first, false, 1, 0, 0, 0⟩, ⟨second, false, 1, 0, 0, 0⟩, ⟨first, false, 1, 64, 0, 0⟩, ⟨second, true, 1, 64, 0, 0⟩]

/-- An upper cache writes a line and reads another one. -/
def writeThenReadOther : List (CpuAccess 2) := [⟨first, true, 1, 0, 0, 0⟩, ⟨first, false, 1, 64, 0, 0⟩]

end TwoLevels

end Vpsim.Memory
