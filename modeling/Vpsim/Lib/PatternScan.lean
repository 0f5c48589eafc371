import Mathlib.Data.List.Infix

/-!
# Scanning a list for a pattern

The leftmost occurrences of a pattern that do not overlap, and a scan that keeps the length of the part
of the pattern that it has seen last. When an element does not go on with the pattern, the scan starts
again behind this element, so it can miss an occurrence that begins in what it has seen. It finds
exactly the occurrences if none begins there.
-/

namespace Vpsim.Lib

variable {α : Type} [DecidableEq α] {p w : List α}

/-- Which elements begin an occurrence, where the first `skip` ones belong to the last occurrence. -/
def starts (p : List α) : ℕ → List α → List Bool
  | _, [] => []
  | skip + 1, _ :: w => false :: starts p skip w
  | 0, a :: w => if p <+: a :: w then true :: starts p (p.length - 1) w else false :: starts p 0 w

/-- Which elements end an occurrence. -/
def ends (p w : List α) : List Bool := (List.replicate (p.length - 1) false ++ starts p 0 w).take w.length

/-- The elements at which a scan that has seen the first `i` elements of the pattern finds it. -/
def scan (p : List α) : ℕ → List α → List Bool
  | _, [] => []
  | i, a :: w =>
    if p[i]? = some a then
      if i + 1 = p.length then true :: scan p 0 w else false :: scan p (i + 1) w
    else false :: scan p 0 w

/-- The length of the longest common prefix. -/
def commonPrefix : List α → List α → ℕ
  | a :: p, b :: w => if a = b then commonPrefix p w + 1 else 0
  | _, _ => 0

/-- Take occurrences of the pattern from the front of the list and, where it does not occur, the longest
part of it that is there with the next element: no occurrence begins inside what is taken in vain. -/
inductive Clear (p : List α) : List α → Prop
  | nil : Clear p []
  | found {w : List α} : p <+: w → Clear p (w.drop p.length) → Clear p w
  | failed {w : List α} : ¬ p <+: w → (∀ r, 0 < r → r ≤ commonPrefix p w → ¬ p <+: w.drop r) →
      Clear p (w.drop (commonPrefix p w + 1)) → Clear p w

/-! ## Occurrences -/

/-- The elements of the last occurrence begin no other one. -/
theorem starts_eq_append (p : List α) (skip : ℕ) (w : List α) :
    starts p skip w = List.replicate (w.take skip).length false ++ starts p 0 (w.drop skip) := by
  induction w generalizing skip with
  | nil => cases skip <;> rfl
  | cons a w ih =>
    cases skip with
    | zero => rfl
    | succ skip =>
      change false :: starts p skip w = _
      rw [ih]
      rfl

/-- Where no occurrence begins at the first `k` elements, the marks of the starts are those behind them.
-/
theorem starts_of_none (k : ℕ) (h : ∀ r < k, ¬ p <+: w.drop r) :
    starts p 0 w = List.replicate (w.take k).length false ++ starts p 0 (w.drop k) := by
  induction k generalizing w with
  | zero => rfl
  | succ k ih =>
    cases w with
    | nil => rfl
    | cons a w =>
      have hfirst : ¬ p <+: a :: w := h 0 (Nat.succ_pos k)
      have hrest := ih (w := w) fun r hr => h (r + 1) (Nat.succ_lt_succ hr)
      rw [starts, if_neg hfirst, hrest]
      rfl

/-- Elements in front of which nothing begins move the ends. -/
theorem ends_of_none (k : ℕ) (h : ∀ r < k, ¬ p <+: w.drop r) :
    ends p w = List.replicate (w.take k).length false ++ ends p (w.drop k) := by
  unfold ends
  rw [starts_of_none k h, ← List.append_assoc, List.replicate_append_replicate, Nat.add_comm,
    ← List.replicate_append_replicate, List.append_assoc, List.take_append, List.length_replicate]
  have hlength : (w.take k).length + (w.drop k).length = w.length := by
    rw [← List.length_append, List.take_append_drop]
  congr 1
  · apply List.take_of_length_le
    rw [List.length_replicate, ← hlength]
    exact Nat.le_add_right _ _
  · rw [← hlength, Nat.add_sub_cancel_left]

/-- An occurrence at the front ends at its last element. -/
theorem ends_append (hp : p ≠ []) (v : List α) :
    ends p (p ++ v) = List.replicate (p.length - 1) false ++ true :: ends p v := by
  obtain ⟨a, q, rfl⟩ := List.exists_cons_of_ne_nil hp
  have hprefix : a :: q <+: a :: (q ++ v) := List.prefix_append (a :: q) v
  have hstarts : starts (a :: q) 0 (a :: (q ++ v)) = true :: (List.replicate q.length false ++ starts (a :: q) 0 v) := by
    rw [starts, if_pos hprefix, starts_eq_append, List.length_cons, Nat.succ_sub_one, List.take_left, List.drop_left]
  have hlength : (a :: (q ++ v)).length = (List.replicate q.length false).length + (v.length + 1) := by
    rw [List.length_cons, List.length_append, List.length_replicate, Nat.add_assoc]
  unfold ends
  rw [List.length_cons, Nat.succ_sub_one, List.cons_append, hstarts, hlength, List.take_length_add_append,
    List.take_succ_cons]

/-- Each element has a mark. -/
theorem length_ends (p w : List α) : (ends p w).length = w.length := by
  have hstarts : ∀ (w : List α) (skip : ℕ), (starts p skip w).length = w.length := by
    intro w
    induction w with
    | nil => exact fun skip => rfl
    | cons a w ih =>
      intro skip
      cases skip with
      | zero =>
        rw [starts]
        split
        · exact congrArg Nat.succ (ih _)
        · exact congrArg Nat.succ (ih _)
      | succ skip => exact congrArg Nat.succ (ih skip)
  unfold ends
  rw [List.length_take, List.length_append, hstarts]
  exact Nat.min_eq_left (Nat.le_add_left _ _)

/-! ## Scans -/

/-- A scan goes through the rest of the pattern. -/
theorem scan_rest (u : List α) {q : List α} (hq : q ≠ []) (v : List α) :
    scan (u ++ q) u.length (q ++ v) = List.replicate (q.length - 1) false ++ true :: scan (u ++ q) 0 v := by
  induction q generalizing u with
  | nil => exact absurd rfl hq
  | cons a q ih =>
    have hnext : (u ++ a :: q)[u.length]? = some a := by
      rw [List.getElem?_append_right (Nat.le_refl _), Nat.sub_self, List.getElem?_cons_zero]
    rw [List.cons_append, scan, if_pos hnext]
    cases q with
    | nil =>
      rw [if_pos (by rw [List.length_append, List.length_singleton])]
      rfl
    | cons b q =>
      rw [if_neg (by rw [List.length_append, List.length_cons, List.length_cons]; omega)]
      have hrest := ih (u ++ [a]) (List.cons_ne_nil b q)
      rw [List.append_assoc, List.length_append, List.length_singleton] at hrest
      change false :: scan (u ++ a :: b :: q) (u.length + 1) (b :: q ++ v) = _
      rw [List.singleton_append] at hrest
      rw [hrest]
      rfl

/-- A scan finds the pattern at the front. -/
theorem scan_append (hp : p ≠ []) (v : List α) :
    scan p 0 (p ++ v) = List.replicate (p.length - 1) false ++ true :: scan p 0 v := scan_rest [] hp v

/-- A scan that does not find the rest of the pattern starts again behind the element that differs. -/
theorem scan_rest_failed (u : List α) {q : List α} (h : ¬ q <+: w) : scan (u ++ q) u.length w =
    List.replicate (w.take (commonPrefix q w + 1)).length false ++ scan (u ++ q) 0 (w.drop (commonPrefix q w + 1)) := by
  induction q generalizing u w with
  | nil => exact absurd List.nil_prefix h
  | cons a q ih =>
    have hnext : (u ++ a :: q)[u.length]? = some a := by
      rw [List.getElem?_append_right (Nat.le_refl _), Nat.sub_self, List.getElem?_cons_zero]
    cases w with
    | nil => rfl
    | cons b w =>
      rw [scan, hnext]
      by_cases hab : a = b
      · have hrest : ¬ q <+: w := fun hprefix => h (List.cons_prefix_cons.2 ⟨hab, hprefix⟩)
        have hq : q ≠ [] := by
          intro hnil
          rw [hnil] at hrest
          exact hrest List.nil_prefix
        have hlength : u.length + 1 ≠ (u ++ a :: q).length := by
          rw [List.length_append, List.length_cons]
          have := List.length_pos_iff.2 hq
          omega
        have hstep := ih (u ++ [a]) hrest
        rw [List.append_assoc, List.singleton_append, List.length_append, List.length_singleton] at hstep
        rw [if_pos (congrArg some hab), if_neg hlength, hstep, commonPrefix, if_pos hab]
        rfl
      · rw [if_neg fun heq => hab (Option.some.inj heq), commonPrefix, if_neg hab]
        rfl

/-- A scan that does not find the pattern at the front goes on behind the element that differs. -/
theorem scan_failed (h : ¬ p <+: w) : scan p 0 w =
    List.replicate (w.take (commonPrefix p w + 1)).length false ++ scan p 0 (w.drop (commonPrefix p w + 1)) :=
  scan_rest_failed [] h

/-- A scan has a mark for each element. -/
theorem length_scan (p : List α) (i : ℕ) (w : List α) : (scan p i w).length = w.length := by
  induction w generalizing i with
  | nil => rfl
  | cons a w ih =>
    rw [scan]
    split
    · split
      · exact congrArg Nat.succ (ih 0)
      · exact congrArg Nat.succ (ih (i + 1))
    · exact congrArg Nat.succ (ih 0)

/-- What a scan finds is as long as the pattern. -/
theorem le_of_scan {i j : ℕ} (hi : i < p.length) (h : (scan p i w)[j]? = some true) : p.length ≤ i + j + 1 := by
  induction w generalizing i j with
  | nil => cases h
  | cons a w ih =>
    have hpos : 0 < p.length := Nat.lt_of_le_of_lt (Nat.zero_le i) hi
    rw [scan] at h
    cases j with
    | zero =>
      split at h
      · split at h
        · rename_i hlast
          exact Nat.le_of_eq hlast.symm
        · cases h
      · cases h
    | succ j =>
      split at h
      · split at h
        · have hrest := ih hpos h
          omega
        · have hrest := ih (by omega) h
          omega
      · have hrest := ih hpos h
        omega

omit [DecidableEq α] in
/-- An occurrence begins in the list. -/
theorem lt_length_of_starts (hp : p ≠ []) {r : ℕ} (h : p <+: w.drop r) : r < w.length := by
  have hlength := h.length_le
  have hpos := List.length_pos_iff.2 hp
  rw [List.length_drop] at hlength
  omega

/-- The first occurrence ends where it should. -/
theorem ends_of_first (hp : p ≠ []) {r : ℕ} (hbefore : ∀ r' < r, ¬ p <+: w.drop r') (hat : p <+: w.drop r) :
    (ends p w)[r + (p.length - 1)]? = some true := by
  have hle : r ≤ w.length := Nat.le_of_lt (lt_length_of_starts hp hat)
  obtain ⟨v, hv⟩ := hat
  rw [ends_of_none r hbefore, ← hv, ends_append hp, List.length_take_of_le hle]
  rw [List.getElem?_append_right (by rw [List.length_replicate]; exact Nat.le_add_right _ _),
    List.length_replicate, Nat.add_sub_cancel_left,
    List.getElem?_append_right (by rw [List.length_replicate]), List.length_replicate, Nat.sub_self]
  rfl

/-! ## Scans that find the occurrences -/

/-- A scan of a list where no occurrence begins in what is taken in vain finds the occurrences. -/
theorem Clear.scan_eq (hp : p ≠ []) (h : Clear p w) : scan p 0 w = ends p w := by
  induction h with
  | nil =>
    unfold ends
    rfl
  | @found w hprefix _ ih =>
    obtain ⟨v, rfl⟩ := hprefix
    rw [List.drop_left] at ih
    rw [scan_append hp, ends_append hp, ih]
  | @failed w hnot hclear _ ih =>
    have hends := ends_of_none (p := p) (w := w) (commonPrefix p w + 1) fun r hr => by
      rcases Nat.eq_zero_or_pos r with rfl | hpos
      · exact hnot
      · exact hclear r hpos (Nat.le_of_lt_succ hr)
    rw [scan_failed hnot, hends, ih]

/-- A scan that finds the occurrences of a list: no occurrence begins in what is taken in vain. -/
theorem Clear.of_scan_eq (hp : p ≠ []) (h : scan p 0 w = ends p w) : Clear p w := by
  induction hn : w.length using Nat.strongRecOn generalizing w with
  | ind n ih =>
    subst hn
    by_cases hprefix : p <+: w
    · obtain ⟨v, rfl⟩ := hprefix
      rw [scan_append hp, ends_append hp] at h
      have htail : scan p 0 v = ends p v := (List.cons.inj (List.append_cancel_left h)).2
      apply Clear.found (List.prefix_append p v)
      rw [List.drop_left]
      apply ih v.length _ htail rfl
      rw [List.length_append]
      exact Nat.lt_add_of_pos_left (List.length_pos_iff.2 hp)
    · cases w with
      | nil => exact .nil
      | cons a w =>
        have hscan := scan_failed hprefix
        have hclear : ∀ r, r ≤ commonPrefix p (a :: w) → ¬ p <+: (a :: w).drop r := by
          intro r
          induction r using Nat.strongRecOn with
          | ind r ihr =>
            intro hr hat
            -- the scan starts again behind the first occurrence that begins in what is taken
            have hend := ends_of_first hp (fun r' hr' => ihr r' hr' (by omega)) hat
            rw [← h, hscan] at hend
            by_cases hin : r + (p.length - 1) < ((a :: w).take (commonPrefix p (a :: w) + 1)).length
            · rw [List.getElem?_append_left (by rw [List.length_replicate]; exact hin), List.getElem?_replicate,
                if_pos hin] at hend
              cases hend
            · rw [List.getElem?_append_right (by rw [List.length_replicate]; exact Nat.le_of_not_lt hin),
                List.length_replicate] at hend
              have hpos := List.length_pos_iff.2 hp
              have hlong := le_of_scan hpos hend
              have hshort : r < ((a :: w).take (commonPrefix p (a :: w) + 1)).length := by
                have hlt := lt_length_of_starts hp hat
                rw [List.length_take]
                omega
              omega
        apply Clear.failed hprefix (fun r _ hr => hclear r hr)
        have hends := ends_of_none (p := p) (commonPrefix p (a :: w) + 1) fun r hr => hclear r (Nat.le_of_lt_succ hr)
        rw [hscan, hends] at h
        apply ih _ _ (List.append_cancel_left h) rfl
        rw [List.length_drop, List.length_cons]
        omega

/-- A scan finds the occurrences exactly when none begins in what is taken in vain. -/
theorem scan_eq_ends_iff (hp : p ≠ []) : scan p 0 w = ends p w ↔ Clear p w := ⟨Clear.of_scan_eq hp, Clear.scan_eq hp⟩

/-! ## Patterns that a scan always finds -/

/-- The longest common prefix is one. -/
theorem take_commonPrefix (p w : List α) : w.take (commonPrefix p w) = p.take (commonPrefix p w) := by
  induction p generalizing w with
  | nil => cases w <;> rfl
  | cons a p ih =>
    cases w with
    | nil => rfl
    | cons b w =>
      unfold commonPrefix
      split
      · rename_i hab
        rw [List.take_succ_cons, List.take_succ_cons, ih, hab]
      · rfl

/-- A pattern of one repeated element is found in every list. -/
theorem clear_replicate {a : α} {n : ℕ} (hn : 0 < n) (w : List α) : Clear (List.replicate n a) w := by
  induction hw : w.length using Nat.strongRecOn generalizing w with
  | ind k ih =>
    subst hw
    by_cases hprefix : List.replicate n a <+: w
    · apply Clear.found hprefix
      apply ih _ _ _ rfl
      have hlength := hprefix.length_le
      rw [List.length_replicate] at hlength
      rw [List.length_drop, List.length_replicate]
      omega
    · cases w with
      | nil => exact .nil
      | cons b w =>
        apply Clear.failed hprefix
        · intro r _ hr hat
          apply hprefix
          obtain ⟨t, ht⟩ := hat
          have hfront : (b :: w).take r = List.replicate (min r n) a := by
            have htake := congrArg (List.take r) (take_commonPrefix (List.replicate n a) (b :: w))
            rw [List.take_take, List.take_take, Nat.min_eq_left hr, List.take_replicate] at htake
            exact htake
          rw [← List.take_append_drop r (b :: w), hfront, ← ht, ← List.append_assoc, List.replicate_append_replicate,
            Nat.add_comm, ← List.replicate_append_replicate, List.append_assoc]
          exact List.prefix_append _ _
        · apply ih _ _ _ rfl
          rw [List.length_drop, List.length_cons]
          omega

omit [DecidableEq α] in
/-- A list that goes on as it does one element later repeats this element. -/
theorem eq_of_prefix_cons {a : α} {q : List α} (h : q <+: a :: q) : ∀ b ∈ q, b = a := by
  induction q with
  | nil => exact nofun
  | cons c q ih =>
    obtain ⟨hc, hq⟩ := List.cons_prefix_cons.1 h
    rw [hc] at hq
    intro b hb
    rcases List.mem_cons.1 hb with rfl | hb
    · exact hc
    · exact ih hq b hb

/-- A pattern that a scan finds behind its own first element repeats this element. -/
theorem eq_of_clear_cons {a : α} {q : List α} (h : Clear (a :: q) (a :: a :: q)) : ∀ b ∈ q, b = a := by
  by_cases hprefix : a :: q <+: a :: a :: q
  · exact eq_of_prefix_cons (List.cons_prefix_cons.1 hprefix).2
  · exfalso
    cases h with
    | found hat _ => exact hprefix hat
    | failed _ hnone _ =>
      apply hnone 1 Nat.one_pos
      · rw [commonPrefix, if_pos rfl]
        exact Nat.succ_pos _
      · exact List.prefix_refl _

end Vpsim.Lib
