import Mathlib.Data.List.Basic
import Mathlib.Data.List.Nodup
import Mathlib.Tactic.ByContra

/-!
# Insertion-ordered hash tables

An intrusive hash table is observed through three operations: a lookup by key,
an iteration over all elements in the order in which they were added, and the
removal of one element.  The list of `(key, element)` pairs in insertion order
carries all three.  Nothing stops a caller from adding a key twice; a lookup
then meets the element added last.
-/

set_option autoImplicit false

namespace Pkgng.Lib

/-- The `(key, element)` pairs of a table, oldest first. -/
abbrev HashTable (κ α : Type) := List (κ × α)

namespace HashTable

variable {κ α : Type} [DecidableEq κ]

/-- The element a lookup finds: the youngest one under the key. -/
def find (key : κ) : HashTable κ α → Option α
  | [] => none
  | (other, value) :: rest =>
      match find key rest with
      | some found => some found
      | none => if other = key then some value else none

def add (key : κ) (value : α) (table : HashTable κ α) : HashTable κ α :=
  table ++ [(key, value)]

omit [DecidableEq κ] in
/-- Removal of one element, given by its address and not by its key. -/
def delete [DecidableEq α] (value : α) (table : HashTable κ α) : HashTable κ α :=
  table.filter fun entry => decide (entry.2 ≠ value)

@[simp] theorem find_nil (key : κ) : find key ([] : HashTable κ α) = none := rfl

theorem find_add (key other : κ) (value : α) (table : HashTable κ α) :
    find key (add other value table) =
      if other = key then some value else find key table := by
  induction table with
  | nil => by_cases same : other = key <;> simp [add, find, same]
  | cons entry rest ih =>
      obtain ⟨k, v⟩ := entry
      have unfolded : find key (add other value ((k, v) :: rest)) =
          match find key (add other value rest) with
          | some found => some found
          | none => if k = key then some v else none := rfl
      rw [unfolded, ih]
      by_cases same : other = key
      · simp [same]
      · simp [same, find]

@[simp] theorem find_add_self (key : κ) (value : α) (table : HashTable κ α) :
    find key (add key value table) = some value := by
  simp [find_add]

theorem mem_of_find {key : κ} {value : α} {table : HashTable κ α}
    (found : find key table = some value) : (key, value) ∈ table := by
  induction table with
  | nil => simp at found
  | cons entry rest ih =>
      obtain ⟨k, v⟩ := entry
      simp only [find] at found
      cases tail : find key rest with
      | some w =>
          rw [tail] at found
          cases found
          exact List.mem_cons_of_mem _ (ih tail)
      | none =>
          rw [tail] at found
          by_cases same : k = key
          · rw [if_pos same] at found
            cases found
            subst same
            exact List.mem_cons_self ..
          · simp [same] at found

theorem find_eq_none_iff {key : κ} {table : HashTable κ α} :
    find key table = none ↔ key ∉ table.map Prod.fst := by
  induction table with
  | nil => simp
  | cons entry rest ih =>
      obtain ⟨k, v⟩ := entry
      simp only [find, List.map_cons, List.mem_cons, not_or]
      cases tail : find key rest with
      | some w =>
          have present : key ∈ rest.map Prod.fst := by
            by_contra absent
            rw [ih.mpr absent] at tail
            cases tail
          simp [present]
      | none => simp [ih.mp tail, eq_comm]

/-- With distinct keys a lookup is membership. -/
theorem find_eq_some_iff {table : HashTable κ α} (nodup : (table.map Prod.fst).Nodup)
    {key : κ} {value : α} : find key table = some value ↔ (key, value) ∈ table := by
  refine ⟨mem_of_find, fun member => ?_⟩
  induction table with
  | nil => simp at member
  | cons entry rest ih =>
      obtain ⟨k, v⟩ := entry
      rw [List.map_cons, List.nodup_cons] at nodup
      simp only [find]
      rcases List.mem_cons.mp member with same | tail
      · cases same
        rw [find_eq_none_iff.mpr nodup.1]
        simp
      · rw [ih nodup.2 tail]

theorem find_map {β : Type} (f : α → β) (key : κ) (table : HashTable κ α) :
    find key (table.map fun entry => (entry.1, f entry.2)) = (find key table).map f := by
  induction table with
  | nil => rfl
  | cons entry rest ih =>
      obtain ⟨k, v⟩ := entry
      simp only [List.map_cons, find, ih]
      cases find key rest with
      | some found => rfl
      | none => by_cases same : k = key <;> simp [same]

omit [DecidableEq κ] in
@[simp] theorem keys_add (key : κ) (value : α) (table : HashTable κ α) :
    (add key value table).map Prod.fst = table.map Prod.fst ++ [key] := by
  simp [add]

omit [DecidableEq κ] in
theorem mem_add {key : κ} {value : α} {table : HashTable κ α} {entry : κ × α} :
    entry ∈ add key value table ↔ entry ∈ table ∨ entry = (key, value) := by
  simp [add]

/-- Adding under an absent key keeps the keys distinct. -/
theorem keys_nodup_add {key : κ} {value : α} {table : HashTable κ α}
    (nodup : (table.map Prod.fst).Nodup) (absent : find key table = none) :
    ((add key value table).map Prod.fst).Nodup := by
  rw [keys_add, List.nodup_append]
  refine ⟨nodup, List.nodup_singleton _, ?_⟩
  intro k member other inSingleton same
  rw [List.mem_singleton] at inSingleton
  exact find_eq_none_iff.mp absent (inSingleton ▸ same ▸ member)

omit [DecidableEq κ] in
theorem mem_delete [DecidableEq α] {value : α} {table : HashTable κ α} {entry : κ × α} :
    entry ∈ delete value table ↔ entry ∈ table ∧ entry.2 ≠ value := by
  simp [delete]

omit [DecidableEq κ] in
theorem keys_nodup_delete [DecidableEq α] {value : α} {table : HashTable κ α}
    (nodup : (table.map Prod.fst).Nodup) :
    ((delete value table).map Prod.fst).Nodup :=
  nodup.sublist (List.filter_sublist.map _)

end HashTable

end Pkgng.Lib
