import Mathlib.Data.Nat.Notation
import Mathlib.Order.Lattice
import Mathlib.Data.List.Nodup

/-!
# Maps kept in the order of their keys

A finite map is the list of its entries in increasing order of the keys, which is the order in
which a scan visits them.
-/

namespace Vpsim.Lib

variable {κ ν : Type} [LinearOrder κ]

/-- Give a key a value, in place or at the position that keeps the keys in order. -/
def setEntry (key : κ) (value : ν) : List (κ × ν) → List (κ × ν)
  | [] => [(key, value)]
  | entry :: rest =>
    if key < entry.1 then (key, value) :: entry :: rest
    else if key = entry.1 then (key, value) :: rest
    else entry :: setEntry key value rest

/-- The value of a key. -/
def findEntry (key : κ) : List (κ × ν) → Option ν
  | [] => none
  | entry :: rest => if entry.1 = key then some entry.2 else findEntry key rest

variable {key : κ} {value : ν} {map : List (κ × ν)}

/-- A key that is set is found. -/
theorem findEntry_setEntry_self : findEntry key (setEntry key value map) = some value := by
  induction map with
  | nil => simp [setEntry, findEntry]
  | cons entry rest ih =>
    unfold setEntry
    split
    · simp [findEntry]
    · split
      · simp [findEntry]
      · rename_i hne
        rw [findEntry, if_neg (fun h => hne h.symm)]
        exact ih

/-- The other keys keep their values. -/
theorem findEntry_setEntry_of_ne {other : κ} (h : other ≠ key) :
    findEntry other (setEntry key value map) = findEntry other map := by
  induction map with
  | nil => simp [setEntry, findEntry, h.symm]
  | cons entry rest ih =>
    unfold setEntry
    split
    · simp [findEntry, h.symm]
    · split
      · rename_i heq
        simp [findEntry, h.symm, ← heq]
      · simp [findEntry, ih]

/-- A value that is found belongs to an entry. -/
theorem mem_of_findEntry (h : findEntry key map = some value) : (key, value) ∈ map := by
  induction map with
  | nil => cases h
  | cons entry rest ih =>
    rw [findEntry] at h
    split at h
    · rename_i heq
      cases h
      rw [← heq]
      exact List.mem_cons_self
    · exact List.mem_cons_of_mem _ (ih h)

/-- The key of an entry is found. -/
theorem findEntry_ne_none {entry : κ × ν} (h : entry ∈ map) : findEntry entry.1 map ≠ none := by
  induction map with
  | nil => cases h
  | cons first rest ih =>
    rw [findEntry]
    split
    · exact Option.some_ne_none _
    · rename_i hne
      rcases List.mem_cons.mp h with h | h
      · exact absurd (congrArg Prod.fst h).symm hne
      · exact ih h

/-- A key that is new adds one entry. -/
theorem setEntry_perm (h : ∀ entry ∈ map, entry.1 ≠ key) : (setEntry key value map).Perm ((key, value) :: map) := by
  induction map with
  | nil => exact List.Perm.refl _
  | cons first rest ih =>
    unfold setEntry
    split
    · exact List.Perm.refl _
    · rw [if_neg fun heq => h first List.mem_cons_self heq.symm]
      have hrest := ih fun entry hentry => h entry (List.mem_cons_of_mem first hentry)
      exact (hrest.cons first).trans (List.Perm.swap _ _ _)

/-- Take the entry of a key out. -/
def eraseEntry (key : κ) (map : List (κ × ν)) : List (κ × ν) := map.filter fun entry => entry.1 ≠ key

/-- The entry of a key in a map that has it once, and the others. -/
theorem perm_eraseEntry (hnodup : (map.map Prod.fst).Nodup) (h : (key, value) ∈ map) :
    map.Perm ((key, value) :: eraseEntry key map) := by
  induction map with
  | nil => cases h
  | cons first rest ih =>
    obtain ⟨hfirst, hrest⟩ := List.nodup_cons.1 hnodup
    unfold eraseEntry
    rcases List.mem_cons.1 h with heq | hmem
    · rw [← heq, List.filter_cons_of_neg (by simp)]
      rw [← heq] at hfirst
      have hkept : rest.filter (fun entry => decide (entry.1 ≠ key)) = rest := by
        apply List.filter_eq_self.2
        intro entry hentry
        apply decide_eq_true
        intro hkey
        exact hfirst (List.mem_map.2 ⟨entry, hentry, hkey⟩)
      rw [hkept]
    · have hne : first.1 ≠ key := fun heq => hfirst (heq ▸ List.mem_map_of_mem (f := Prod.fst) hmem)
      rw [List.filter_cons_of_pos (by simpa using hne)]
      exact ((ih hrest hmem).cons first).trans (List.Perm.swap _ _ _)

/-- Erasing an entry leaves the keys different. -/
theorem nodup_eraseEntry (hnodup : (map.map Prod.fst).Nodup) (key : κ) :
    ((eraseEntry key map).map Prod.fst).Nodup := hnodup.sublist (List.filter_sublist.map Prod.fst)

end Vpsim.Lib
