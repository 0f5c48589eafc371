import Vpsim.Lib.OrderedMap

/-!
# Finite maps that carry the order of their keys

The entries of a map come in increasing order of the keys, each key once. A key that is set or
inserted joins the keys, and a key that is already there leaves them as they are.
-/

namespace Vpsim.Lib

/-- A finite map. -/
structure SortedMap (κ ν : Type) [LinearOrder κ] where
  entries : List (κ × ν)
  sorted : (entries.map Prod.fst).Pairwise (· < ·)

namespace SortedMap

variable {κ ν : Type} [LinearOrder κ]

/-- Setting an entry adds its key and no other. -/
theorem mem_map_setEntry {map : List (κ × ν)} {key k : κ} {value : ν} :
    k ∈ (setEntry key value map).map Prod.fst ↔ k = key ∨ k ∈ map.map Prod.fst := by
  induction map with
  | nil => exact List.mem_cons
  | cons entry rest ih =>
    unfold setEntry
    by_cases hlt : key < entry.1
    · rw [if_pos hlt, List.map_cons, List.mem_cons]
    · rw [if_neg hlt]
      by_cases heq : key = entry.1
      · rw [if_pos heq, List.map_cons, List.mem_cons, List.map_cons, List.mem_cons, ← heq, ← or_assoc, or_self]
      · rw [if_neg heq, List.map_cons, List.mem_cons, List.map_cons, List.mem_cons, ih, or_left_comm]

/-- The keys stay in order. -/
theorem sorted_setEntry {map : List (κ × ν)} (h : (map.map Prod.fst).Pairwise (· < ·)) (key : κ) (value : ν) :
    ((setEntry key value map).map Prod.fst).Pairwise (· < ·) := by
  induction map with
  | nil => exact List.pairwise_singleton _ _
  | cons entry rest ih =>
    obtain ⟨hfirst, hrest⟩ := List.pairwise_cons.1 h
    unfold setEntry
    by_cases hlt : key < entry.1
    · rw [if_pos hlt]
      apply List.pairwise_cons.2
      refine ⟨fun k hk => ?_, h⟩
      rcases List.mem_cons.1 hk with heq | hk
      · rw [heq]
        exact hlt
      · exact hlt.trans (hfirst k hk)
    · rw [if_neg hlt]
      by_cases heq : key = entry.1
      · rw [if_pos heq, List.map_cons, heq]
        exact h
      · rw [if_neg heq, List.map_cons]
        apply List.pairwise_cons.2
        refine ⟨fun k hk => ?_, ih hrest⟩
        rcases mem_map_setEntry.1 hk with hkey | hk
        · rw [hkey]
          exact lt_of_le_of_ne (le_of_not_gt hlt) (Ne.symm heq)
        · exact hfirst k hk

/-- A key that is there already is set in its place. -/
theorem map_setEntry_of_mem {map : List (κ × ν)} (h : (map.map Prod.fst).Pairwise (· < ·)) {key : κ}
    (hkey : key ∈ map.map Prod.fst) (value : ν) : (setEntry key value map).map Prod.fst = map.map Prod.fst := by
  induction map with
  | nil => cases hkey
  | cons entry rest ih =>
    obtain ⟨hfirst, hrest⟩ := List.pairwise_cons.1 h
    unfold setEntry
    by_cases heq : key = entry.1
    · rw [if_neg (not_lt_of_ge (le_of_eq heq.symm)), if_pos heq, List.map_cons, heq]
      rfl
    · have hmem : key ∈ rest.map Prod.fst := (List.mem_cons.1 hkey).resolve_left heq
      rw [if_neg (lt_asymm (hfirst key hmem)), if_neg heq, List.map_cons, ih hrest hmem]
      rfl

/-- The map with no keys. -/
def empty : SortedMap κ ν := ⟨[], List.Pairwise.nil⟩

/-- The keys in order. -/
def keys (m : SortedMap κ ν) : List κ := m.entries.map Prod.fst

/-- The value of a key. -/
def find (m : SortedMap κ ν) (key : κ) : Option ν := findEntry key m.entries

/-- Give a key a value. -/
def set (m : SortedMap κ ν) (key : κ) (value : ν) : SortedMap κ ν :=
  ⟨setEntry key value m.entries, sorted_setEntry m.sorted key value⟩

/-- Give a key a value unless it has one. -/
def insert (m : SortedMap κ ν) (key : κ) (value : ν) : SortedMap κ ν :=
  if key ∈ m.keys then m else m.set key value

variable {m : SortedMap κ ν} {key k : κ} {value : ν}

/-- Setting a key adds it and no other. -/
theorem mem_keys_set : k ∈ (m.set key value).keys ↔ k = key ∨ k ∈ m.keys := mem_map_setEntry

/-- Setting a key that is there leaves the keys. -/
theorem keys_set_of_mem (h : key ∈ m.keys) : (m.set key value).keys = m.keys :=
  map_setEntry_of_mem m.sorted h value

/-- Inserting a key that is there leaves the map. -/
theorem insert_of_mem (h : key ∈ m.keys) : m.insert key value = m := if_pos h

/-- Inserting a key adds it and no other. -/
theorem mem_keys_insert : k ∈ (m.insert key value).keys ↔ k = key ∨ k ∈ m.keys := by
  unfold insert
  by_cases h : key ∈ m.keys
  · rw [if_pos h]
    exact (or_iff_right_of_imp fun heq => heq ▸ h).symm
  · rw [if_neg h]
    exact mem_keys_set

end SortedMap

end Vpsim.Lib
