import Vpsim.Lib.PatternScan

/-!
# Triggers of the UART

Each registered trigger keeps how many characters of its pattern it has seen last. A character that does
not go on with the pattern sets it back to zero and is not looked at again.
-/

namespace Vpsim.Components

open Vpsim.Lib

/-- An element of `mTriggers`: the number of consecutive matching characters, the pattern, and the
parameter to set with the module and the addresses it is for. -/
structure Trigger (δ : Type) where
  pos : ℕ
  pattern : List UInt8
  descriptor : δ

/-- The state of the UART. The two counters are not initialised. -/
structure SmartUart (δ : Type) where
  mWriteAccesses : ℕ
  mReadAccesses : ℕ
  mTriggers : List (Trigger δ)

variable {δ : Type}

/-- A trigger at a character, and whether it fires. Behind the last character of the pattern there is a
NUL character. -/
def Trigger.advance (t : Trigger δ) (c : UInt8) : Trigger δ × Bool :=
  if t.pattern.getD t.pos 0 = c then
    if t.pos + 1 = t.pattern.length then ({ t with pos := 0 }, true) else ({ t with pos := t.pos + 1 }, false)
  else ({ t with pos := 0 }, false)

namespace SmartUart

variable (u : SmartUart δ)

def read : SmartUart δ := { u with mReadAccesses := u.mReadAccesses + 1 }

/-- A character is written. The result has an entry for each trigger, with the parameter that is set if it
fires. -/
def write (c : UInt8) : SmartUart δ × List (Option δ) :=
  let u := { u with mWriteAccesses := u.mWriteAccesses + 1 }
  if c ≠ 0 then
    ({ u with mTriggers := u.mTriggers.map fun t => (t.advance c).1 },
      u.mTriggers.map fun t => if (t.advance c).2 then some t.descriptor else none)
  else (u, u.mTriggers.map fun _ => none)

def regStringParamTrigger (trigger : List UInt8) (descriptor : δ) : Except String (SmartUart δ) :=
  if trigger = [] then throw "The pattern cannot be empty."
  else return { u with mTriggers := u.mTriggers ++ [⟨0, trigger, descriptor⟩] }

/-- What fires at each character of a stream. -/
def writeAll : SmartUart δ → List UInt8 → List (List (Option δ))
  | _, [] => []
  | u, c :: stream => (u.write c).2 :: writeAll (u.write c).1 stream

/-- The characters of a stream at which trigger `j` fires. -/
def firings (j : ℕ) (stream : List UInt8) : List Bool :=
  (u.writeAll stream).map fun fired => (fired[j]?.join).isSome

end SmartUart

/-- Marks of the characters of a stream, of which NUL characters have none. -/
def spread : List UInt8 → List Bool → List Bool
  | [], _ => []
  | c :: stream, marks =>
    if c ≠ 0 then marks.headD false :: spread stream marks.tail else false :: spread stream marks

/-- The characters of a stream that are not NUL. -/
def visible (stream : List UInt8) : List UInt8 := stream.filter (· ≠ 0)

/-- Trigger `j` fires at the last characters of the leftmost occurrences of its pattern that do not overlap,
and nowhere else. -/
def FiresAtOccurrences (u : SmartUart δ) (j : ℕ) (pattern stream : List UInt8) : Prop :=
  u.firings j stream = spread stream (ends pattern (visible stream))

/-! ## A trigger scans for its pattern -/

/-- NUL characters are ignored. -/
theorem visible_cons (c : UInt8) (stream : List UInt8) :
    visible (c :: stream) = if c ≠ 0 then c :: visible stream else visible stream := by
  simp [visible, List.filter_cons]

/-- The marks of a stream can be read back. -/
theorem spread_inj {stream : List UInt8} {marks marks' : List Bool} (h : marks.length = (visible stream).length)
    (h' : marks'.length = (visible stream).length) (heq : spread stream marks = spread stream marks') :
    marks = marks' := by
  induction stream generalizing marks marks' with
  | nil => rw [List.length_eq_zero_iff.1 h, List.length_eq_zero_iff.1 h']
  | cons c stream ih =>
    rw [visible_cons] at h h'
    unfold spread at heq
    by_cases hc : c ≠ 0
    · rw [if_pos hc] at h h'
      rw [if_pos hc, if_pos hc] at heq
      cases marks with
      | nil => cases h
      | cons m marks =>
        cases marks' with
        | nil => cases h'
        | cons m' marks' =>
          obtain ⟨hm, hrest⟩ := List.cons.inj heq
          have htail := ih (Nat.succ.inj h) (Nat.succ.inj h') hrest
          rw [htail]
          exact congrArg (· :: marks') hm
    · rw [if_neg hc] at h h'
      rw [if_neg hc, if_neg hc] at heq
      exact ih h h' (List.cons.inj heq).2

/-- After one character a trigger scans the rest of the stream from where the character leaves it. -/
theorem scan_cons (t : Trigger δ) {c : UInt8} (hc : c ≠ 0) (w : List UInt8) :
    scan t.pattern t.pos (c :: w) = (t.advance c).2 :: scan (t.advance c).1.pattern (t.advance c).1.pos w := by
  have hnext : t.pattern.getD t.pos 0 = c ↔ t.pattern[t.pos]? = some c := by
    rw [List.getD_eq_getElem?_getD]
    cases t.pattern[t.pos]? with
    | none => exact iff_of_false (Ne.symm hc) nofun
    | some d => exact Option.some_inj.symm
  unfold Trigger.advance
  rw [scan]
  by_cases hmatch : t.pattern.getD t.pos 0 = c
  · rw [if_pos hmatch, if_pos (hnext.1 hmatch)]
    by_cases hlast : t.pos + 1 = t.pattern.length
    · rw [if_pos hlast, if_pos hlast]
    · rw [if_neg hlast, if_neg hlast]
  · rw [if_neg hmatch, if_neg fun h => hmatch (hnext.2 h)]

/-- A trigger fires where a scan for its pattern finds it. -/
theorem firings_eq {u : SmartUart δ} {j : ℕ} {t : Trigger δ} (h : u.mTriggers[j]? = some t) (stream : List UInt8) :
    u.firings j stream = spread stream (scan t.pattern t.pos (visible stream)) := by
  induction stream generalizing u t with
  | nil => rfl
  | cons c stream ih =>
    change (((u.write c).2[j]?.join).isSome :: (u.write c).1.firings j stream : List Bool) = _
    rw [visible_cons]
    unfold spread
    by_cases hc : c ≠ 0
    · have htrigger : (u.write c).1.mTriggers[j]? = some (t.advance c).1 := by
        unfold SmartUart.write
        rw [if_pos hc]
        dsimp only
        rw [List.getElem?_map, h]
        rfl
      have hfires : ((u.write c).2[j]?.join).isSome = (t.advance c).2 := by
        unfold SmartUart.write
        rw [if_pos hc]
        dsimp only
        rw [List.getElem?_map, h]
        cases hadvance : (t.advance c).2 with
        | true => simp [hadvance]
        | false => simp [hadvance]
      rw [if_pos hc, if_pos hc, scan_cons t hc, hfires, ih htrigger]
      rfl
    · have htrigger : (u.write c).1.mTriggers[j]? = some t := by
        unfold SmartUart.write
        rw [if_neg hc]
        exact h
      have hfires : ((u.write c).2[j]?.join).isSome = false := by
        unfold SmartUart.write
        rw [if_neg hc]
        dsimp only
        rw [List.getElem?_map, h]
        rfl
      rw [if_neg hc, if_neg hc, hfires, ih htrigger]

/-- A trigger that was just registered fires at the leftmost occurrences of its pattern that do not overlap exactly when
a scan for the pattern finds these. -/
theorem fires_iff_scan {u u' : SmartUart δ} {pattern : List UInt8} {descriptor : δ}
    (hreg : u.regStringParamTrigger pattern descriptor = .ok u') (stream : List UInt8) :
    pattern ≠ [] ∧ (FiresAtOccurrences u' u.mTriggers.length pattern stream ↔
      scan pattern 0 (visible stream) = ends pattern (visible stream)) := by
  unfold SmartUart.regStringParamTrigger at hreg
  by_cases hp : pattern = []
  · rw [if_pos hp] at hreg
    cases hreg
  · rw [if_neg hp] at hreg
    cases hreg
    have htrigger : (u.mTriggers ++ [⟨0, pattern, descriptor⟩])[u.mTriggers.length]? = some ⟨0, pattern, descriptor⟩ := by
      rw [List.getElem?_append_right (Nat.le_refl _), Nat.sub_self]
      rfl
    unfold FiresAtOccurrences
    rw [firings_eq htrigger]
    refine ⟨hp, ?_, congrArg _⟩
    exact spread_inj (length_scan _ _ _) (length_ends _ _)

/-- A trigger that was just registered fires exactly at the leftmost occurrences of its pattern that do not
overlap if and only if, in the characters of the stream that are not NUL, no occurrence begins inside a part of
the pattern that is given up. -/
theorem firesAtOccurrences_iff {u u' : SmartUart δ} {pattern : List UInt8} {descriptor : δ}
    (hreg : u.regStringParamTrigger pattern descriptor = .ok u') (stream : List UInt8) :
    FiresAtOccurrences u' u.mTriggers.length pattern stream ↔ Clear pattern (visible stream) := by
  obtain ⟨hp, hfires⟩ := fires_iff_scan hreg stream
  exact hfires.trans (scan_eq_ends_iff hp)

/-- A trigger fires on every stream as it should exactly when its pattern repeats one character. -/
theorem firesAtOccurrences_forall_iff {u u' : SmartUart δ} {c : UInt8} {pattern : List UInt8} {descriptor : δ}
    (hvisible : ∀ d ∈ c :: pattern, d ≠ 0) (hreg : u.regStringParamTrigger (c :: pattern) descriptor = .ok u') :
    (∀ stream, FiresAtOccurrences u' u.mTriggers.length (c :: pattern) stream) ↔ ∀ d ∈ pattern, d = c := by
  constructor
  · intro h
    obtain ⟨hp, hfires⟩ := fires_iff_scan hreg (c :: c :: pattern)
    have hclear := (scan_eq_ends_iff hp).1 (hfires.1 (h _))
    have hstream : visible (c :: c :: pattern) = c :: c :: pattern := by
      apply List.filter_eq_self.2
      intro d hd
      rcases List.mem_cons.1 hd with rfl | hd
      · exact decide_eq_true (hvisible d List.mem_cons_self)
      · exact decide_eq_true (hvisible d hd)
    rw [hstream] at hclear
    exact eq_of_clear_cons hclear
  · intro h stream
    obtain ⟨hp, hfires⟩ := fires_iff_scan hreg stream
    rw [hfires, scan_eq_ends_iff hp]
    have hreplicate : c :: pattern = List.replicate (pattern.length + 1) c := by
      rw [List.replicate_succ, ← List.eq_replicate_of_mem h]
    rw [hreplicate]
    exact clear_replicate (Nat.succ_pos _) _

/-- A UART with no trigger yet, and `ab` registered. -/
def withAb : SmartUart ℕ := ⟨0, 0, [⟨0, [0x61, 0x62], 7⟩]⟩

/-- The trigger fires at the end of `xab`. -/
theorem fires_xab : FiresAtOccurrences withAb 0 [0x61, 0x62] [0x78, 0x61, 0x62] := by
  have hreg : (⟨0, 0, []⟩ : SmartUart ℕ).regStringParamTrigger [0x61, 0x62] 7 = .ok withAb := rfl
  apply (firesAtOccurrences_iff hreg _).2
  apply Clear.failed (by decide) (fun _ hpos hr => absurd (Nat.lt_of_lt_of_le hpos hr) (by decide))
  exact .found (by decide) .nil

/-- It does not fire in `aab`. -/
theorem not_fires_aab : ¬ FiresAtOccurrences withAb 0 [0x61, 0x62] [0x61, 0x61, 0x62] := by
  unfold FiresAtOccurrences
  decide

end Vpsim.Components
