import Mathlib.Data.List.Nodup
import Mathlib.Data.Int.Notation

/-!
# Tables of names

Names that other tables refer to by their ids.  A reference means the same name as long as its row
is there, whatever names come or go beside it.
-/

set_option autoImplicit false

namespace Pkgng.Lib

abbrev NameTable (Name : Type) := List (Int × Name)

namespace NameTable

variable {Name : Type} [DecidableEq Name]

def ids (table : NameTable Name) : List Int := table.map Prod.fst

def names (table : NameTable Name) : List Name := table.map Prod.snd

/-- `SELECT id WHERE name = ?` as a value. -/
def idOf (table : NameTable Name) (name : Name) : Option Int :=
  (table.find? (·.2 = name)).map Prod.fst

/-- The name that a reference stands for. -/
def nameOf (table : NameTable Name) (id : Int) : Option Name :=
  (table.find? (·.1 = id)).map Prod.snd

/-- `INSERT OR IGNORE` of a name that is to be unique. -/
def intern (next : List Int → Int) (table : NameTable Name) (name : Name) : NameTable Name :=
  if name ∈ table.names then table else table ++ [(next table.ids, name)]

/-- `DELETE` of the rows whose ids are not used. -/
def keep (table : NameTable Name) (used : Int → Bool) : NameTable Name :=
  table.filter fun row => used row.1

variable {table : NameTable Name} {name : Name} {id : Int} {next : List Int → Int}

theorem mem_of_idOf (found : table.idOf name = some id) : (id, name) ∈ table := by
  obtain ⟨row, first, rfl⟩ := Option.map_eq_some_iff.mp found
  have same : row.2 = name := by simpa using List.find?_some first
  rw [← same]
  exact List.mem_of_find?_eq_some first

omit [DecidableEq Name] in
theorem mem_of_nameOf (found : table.nameOf id = some name) : (id, name) ∈ table := by
  obtain ⟨row, first, rfl⟩ := Option.map_eq_some_iff.mp found
  have same : row.1 = id := by simpa using List.find?_some first
  rw [← same]
  exact List.mem_of_find?_eq_some first

omit [DecidableEq Name] in
/-- A row is what its id stands for. -/
theorem nameOf_of_mem (keyed : table.ids.Nodup) (member : (id, name) ∈ table) :
    table.nameOf id = some name := by
  cases found : table.find? (·.1 = id) with
  | none =>
      have missing := List.find?_eq_none.mp found _ member
      simp at missing
  | some row =>
      have same : row.1 = id := by simpa using List.find?_some found
      have whole : row = (id, name) :=
        List.inj_on_of_nodup_map keyed (List.mem_of_find?_eq_some found) member same
      rw [nameOf, found, whole]
      rfl

/-- A reference that was looked up means the name. -/
theorem nameOf_idOf (keyed : table.ids.Nodup) (found : table.idOf name = some id) :
    table.nameOf id = some name := nameOf_of_mem keyed (mem_of_idOf found)

/-- Unique names have one reference each. -/
theorem idOf_nameOf (unique : table.names.Nodup) (found : table.nameOf id = some name) :
    table.idOf name = some id := by
  have member := mem_of_nameOf found
  cases first : table.find? (·.2 = name) with
  | none =>
      have missing := List.find?_eq_none.mp first _ member
      simp at missing
  | some row =>
      have same : row.2 = name := by simpa using List.find?_some first
      have whole : row = (id, name) :=
        List.inj_on_of_nodup_map unique (List.mem_of_find?_eq_some first) member same
      rw [idOf, first, whole]
      rfl

omit [DecidableEq Name] in
theorem isSome_nameOf : (table.nameOf id).isSome = true ↔ id ∈ table.ids := by
  rw [nameOf, Option.isSome_map, List.find?_isSome, ids, List.mem_map]
  simp

omit [DecidableEq Name] in
/-- What is put behind a table changes none of its references. -/
theorem nameOf_append (rest : NameTable Name) (there : id ∈ table.ids) :
    NameTable.nameOf (table ++ rest) id = table.nameOf id := by
  obtain ⟨name, found⟩ := Option.isSome_iff_exists.mp (isSome_nameOf.mpr there)
  obtain ⟨row, first, _⟩ := Option.map_eq_some_iff.mp found
  rw [nameOf, nameOf, List.find?_append, first, Option.some_or]

theorem nameOf_intern (there : id ∈ table.ids) :
    (table.intern next name).nameOf id = table.nameOf id := by
  rw [intern]
  split
  · rfl
  · exact nameOf_append _ there

theorem ids_subset_intern : table.ids ⊆ (table.intern next name).ids := by
  rw [intern]
  split
  · exact List.Subset.refl _
  · rw [ids, ids, List.map_append]
    exact List.subset_append_left ..

theorem idOf_intern : ((table.intern next name).idOf name).isSome = true := by
  rw [idOf, Option.isSome_map, List.find?_isSome, intern]
  split
  · next listed =>
      obtain ⟨row, member, same⟩ := List.mem_map.mp listed
      exact ⟨row, member, by simpa using same⟩
  · exact ⟨_, List.mem_append_right _ (List.mem_singleton_self _), by simp⟩

theorem nodup_ids_intern (keyed : table.ids.Nodup) (fresh : ∀ ids, next ids ∉ ids) :
    (table.intern next name).ids.Nodup := by
  rw [intern]
  split
  · exact keyed
  · rw [ids, List.map_append]
    exact List.Nodup.append keyed (List.nodup_singleton _)
      (List.disjoint_singleton.mpr (fresh table.ids))

theorem nodup_names_intern (unique : table.names.Nodup) :
    (table.intern next name).names.Nodup := by
  rw [intern]
  split
  · exact unique
  · next absent =>
      rw [names, List.map_append]
      exact List.Nodup.append unique (List.nodup_singleton _)
        (List.disjoint_singleton.mpr absent)

omit [DecidableEq Name] in
theorem nameOf_keep {used : Int → Bool} (isUsed : used id = true) :
    (table.keep used).nameOf id = table.nameOf id := by
  have selects : (fun row : Int × Name => decide (used row.1 = true ∧ decide (row.1 = id) = true)) =
      fun row => decide (row.1 = id) := by
    funext row
    by_cases same : row.1 = id
    · simp [same, isUsed]
    · simp [same]
  rw [nameOf, nameOf, keep, List.find?_filter, selects]

omit [DecidableEq Name] in
theorem nodup_ids_keep (keyed : table.ids.Nodup) (used : Int → Bool) :
    (table.keep used).ids.Nodup := keyed.sublist (List.Sublist.map _ List.filter_sublist)

omit [DecidableEq Name] in
theorem nodup_names_keep (unique : table.names.Nodup) (used : Int → Bool) :
    (table.keep used).names.Nodup := unique.sublist (List.Sublist.map _ List.filter_sublist)

end NameTable

end Pkgng.Lib
