import Mathlib.Data.List.Basic
import Pkgng.Lib.CStrings
import Pkgng.Lib.Ucl

/-!
# The dependencies of a manifest

`pkg_set_deps_from_object` and `pkg_adddep`.  What an entry gives stays in `origin` and
`version` for the entries after it.
-/

set_option autoImplicit false

namespace Pkgng

open Lib

/-- `struct pkg_dep`, with the version. -/
structure ManifestDep where
  name : List Char
  origin : List Char
  version : List Char
deriving DecidableEq, Repr

/-- `pkg_adddep`; none is a failed assertion.  A second dependency on an origin is ignored. -/
def addDep (deps : List ManifestDep) (name origin version : List Char) :
    Option (List ManifestDep) :=
  if name = [] ∨ origin = [] ∨ version = [] then none
  else if deps.any fun dep => dep.origin = origin then some deps
  else some (deps ++ [⟨name, origin, version⟩])

/-- The variables `origin` and `version`. -/
structure DepFields where
  origin : Option (List Char) := none
  version : Option (List Char) := none
deriving DecidableEq, Repr

/-- `ucl_iterate_object(self, &it, true)` with the keys of what it visits; `key` is the key of
`self` and of what follows it in its list. -/
def iterateObject (key : Option String) (self : Ucl) (next : List Ucl) :
    List (Option String × Ucl) :=
  match self with
  | .object fields => (Ucl.heads fields).map fun field => (some field.1, field.2)
  | .array elements => elements.map fun element => (none, element)
  | other => (other :: next).map fun value => (key, value)

/-- One turn of the inner loop. -/
def readField (acc : DepFields) (cur : Option String × Ucl) : DepFields :=
  match cur.1, cur.2 with
  | some key, .string text =>
      { origin := if strcaseeq key.toList "origin".toList then some text else acc.origin
        version := if strcaseeq key.toList "version".toList then some text else acc.version }
  | some key, .int value =>
      -- A version may be an integer.
      if strcaseeq key.toList "version".toList then
        { acc with version := some (toString value).toList }
      else acc
  | _, _ => acc

/-- `origin != NULL && version != NULL` -/
def DepFields.complete (fields : DepFields) : Option (List Char × List Char) :=
  match fields.origin, fields.version with
  | some origin, some version => some (origin, version)
  | _, _ => none

/-- The outer loop; `key` is the key of the entries, `okey` that of the whole value. -/
def depsLoop (okey : String) (key : Option String) :
    List Ucl → DepFields → List ManifestDep → Option (List ManifestDep)
  | [], _, deps => some deps
  | self :: next, acc, deps =>
      let read := (iterateObject key self next).foldl readField acc
      match read.complete with
      | some (origin, version) =>
          (addDep deps okey.toList origin version).bind (depsLoop okey key next read)
      | none => depsLoop okey key next read deps

/-- The entries of a value: the elements of an explicit array, or the values of an implicit one. -/
def depEntries (obj : Ucl) (later : List Ucl) : List Ucl :=
  match obj with
  | .array elements => elements
  | other => other :: later

/-- The key of the entries; elements of an explicit array have none. -/
def entryKey (okey : String) (obj : Ucl) : Option String :=
  match obj with
  | .array _ => none
  | _ => some okey

/-- `pkg_set_deps_from_object`; `later` are further values under the same key. -/
def setDepsFromObject (okey : String) (obj : Ucl) (later : List Ucl) (deps : List ManifestDep) :
    Option (List ManifestDep) :=
  depsLoop okey (entryKey okey obj) (depEntries obj later) {} deps

/-! ## What is done for each entry -/

/-- For each entry the origin and the version that `pkg_adddep` is called with, or none where
the entry is skipped. -/
def depActions (key : Option String) : List Ucl → DepFields → List (Option (List Char × List Char))
  | [], _ => []
  | self :: next, acc =>
      let read := (iterateObject key self next).foldl readField acc
      read.complete :: depActions key next read

def addDepAction (okey : String) (deps : List ManifestDep) :
    Option (List Char × List Char) → Option (List ManifestDep)
  | some (origin, version) => addDep deps okey.toList origin version
  | none => some deps

theorem depsLoop_eq (okey : String) (key : Option String) (entries : List Ucl) (acc : DepFields)
    (deps : List ManifestDep) :
    depsLoop okey key entries acc deps =
      (depActions key entries acc).foldlM (addDepAction okey) deps := by
  induction entries generalizing acc deps with
  | nil => rfl
  | cons self next ih =>
      rw [depsLoop, depActions, List.foldlM_cons]
      cases ((iterateObject key self next).foldl readField acc).complete with
      | none => exact ih _ _
      | some given =>
          dsimp only [addDepAction]
          rw [Option.bind_eq_bind]
          congr 1
          funext deps
          exact ih _ _

/-- What an entry gives by itself: the fields of an object. -/
def ownFields (self : Ucl) : DepFields :=
  match self with
  | .object fields =>
      ((Ucl.heads fields).map fun field => (some field.1, field.2)).foldl readField {}
  | _ => {}

def ownAction (self : Ucl) : Option (List Char × List Char) := (ownFields self).complete

/-- Each entry is parsed on its own, and no assertion fails. -/
structure ParsedAlone (okey : String) (obj : Ucl) (later : List Ucl) (deps : List ManifestDep) :
    Prop where
  actions : depActions (entryKey okey obj) (depEntries obj later) {} =
    (depEntries obj later).map ownAction
  returns : ∃ out, setDepsFromObject okey obj later deps = some out

/-! ## What is left over -/

/-- What each entry gives, whatever it came after. -/
def entryReads (key : Option String) : List Ucl → List DepFields
  | [] => []
  | self :: next => (iterateObject key self next).foldl readField {} :: entryReads key next

def DepFields.orElse (fields before : DepFields) : DepFields where
  origin := fields.origin.or before.origin
  version := fields.version.or before.version

theorem readField_orElse (acc : DepFields) (cur : Option String × Ucl) :
    readField acc cur = (readField {} cur).orElse acc := by
  obtain ⟨key, value⟩ := cur
  unfold readField DepFields.orElse
  cases key with
  | none => rfl
  | some key =>
      cases value with
      | string text =>
          dsimp only
          split <;> split <;> rfl
      | int value =>
          dsimp only
          split <;> rfl
      | _ => rfl

theorem foldl_orElse (cur : List (Option String × Ucl)) (acc : DepFields) :
    cur.foldl readField acc = (cur.foldl readField {}).orElse acc := by
  induction cur generalizing acc with
  | nil => rfl
  | cons first rest ih =>
      rw [List.foldl_cons, List.foldl_cons, ih, ih (readField {} first), readField_orElse acc]
      simp only [DepFields.orElse, Option.or_assoc]

theorem complete_eq_none_iff {fields : DepFields} :
    fields.complete = none ↔ fields.origin = none ∨ fields.version = none := by
  unfold DepFields.complete
  cases fields.origin <;> cases fields.version <;> simp

/-- An entry that is complete by itself is an object, and all that is read is its own. -/
theorem read_of_ownAction {self : Ucl} {given : List Char × List Char}
    (own : ownAction self = some given) (key : Option String) (next : List Ucl)
    (acc : DepFields) :
    ((iterateObject key self next).foldl readField acc).complete = some given := by
  cases self with
  | object fields =>
      have fresh : ((iterateObject key (.object fields) next).foldl readField {}).complete =
        some given := own
      rw [foldl_orElse]
      generalize (iterateObject key (.object fields) next).foldl readField {} = read at fresh
      unfold DepFields.complete at fresh
      cases origin : read.origin with
      | none => simp [origin] at fresh
      | some o =>
          cases version : read.version with
          | none => simp [origin, version] at fresh
          | some v =>
              simp only [origin, version] at fresh
              simp [DepFields.complete, DepFields.orElse, origin, version, fresh]
  | _ => cases own

/-- Nothing that an incomplete entry lacks has been given before. -/
def NothingLeftOver (key : Option String) (entries : List Ucl) (acc : DepFields) : Prop :=
  ∀ (i : Nat) (self : Ucl), entries[i]? = some self → ownAction self = none →
    (acc.origin = none ∧ ∀ read ∈ (entryReads key entries).take (i + 1), read.origin = none) ∨
      (acc.version = none ∧ ∀ read ∈ (entryReads key entries).take (i + 1), read.version = none)

theorem nothingLeftOver_cons {key : Option String} {self : Ucl} {next : List Ucl}
    {acc : DepFields} :
    NothingLeftOver key (self :: next) acc ↔
      (ownAction self = none →
        ((iterateObject key self next).foldl readField acc).complete = none) ∧
      NothingLeftOver key next ((iterateObject key self next).foldl readField acc) := by
  rw [foldl_orElse, complete_eq_none_iff]
  generalize isRead : (iterateObject key self next).foldl readField {} = read
  have reads : entryReads key (self :: next) = read :: entryReads key next := by
    rw [entryReads, isRead]
  unfold NothingLeftOver
  rw [reads]
  constructor
  · intro holds
    constructor
    · intro incomplete
      have first := holds 0 self rfl incomplete
      simpa [DepFields.orElse, and_comm] using first
    · intro i other isEntry incomplete
      have later := holds (i + 1) other isEntry incomplete
      rw [List.take_succ_cons] at later
      simp only [List.forall_mem_cons] at later
      simpa [DepFields.orElse, and_comm, and_left_comm, and_assoc] using later
  · rintro ⟨first, later⟩ i other isEntry incomplete
    cases i with
    | zero =>
        cases isEntry
        have none := first incomplete
        simpa [DepFields.orElse, and_comm] using none
    | succ i =>
        have none := later i other isEntry incomplete
        rw [List.take_succ_cons]
        simp only [List.forall_mem_cons]
        simpa [DepFields.orElse, and_comm, and_left_comm, and_assoc] using none

theorem depActions_eq_iff (key : Option String) (entries : List Ucl) (acc : DepFields) :
    depActions key entries acc = entries.map ownAction ↔ NothingLeftOver key entries acc := by
  induction entries generalizing acc with
  | nil =>
      refine iff_of_true rfl fun i self isEntry => ?_
      cases isEntry
  | cons self next ih =>
      rw [depActions, List.map_cons, List.cons.injEq, ih, nothingLeftOver_cons]
      refine and_congr_left' ?_
      cases own : ownAction self with
      | none => exact ⟨fun skipped _ => skipped, fun skipped => skipped rfl⟩
      | some given =>
          exact iff_of_true (read_of_ownAction own key next acc) fun absurd => by cases absurd

/-! ## Assertions -/

/-- What the assertions of `pkg_adddep` ask for. -/
def Named (okey : String) (given : List Char × List Char) : Prop :=
  okey.toList ≠ [] ∧ given.1 ≠ [] ∧ given.2 ≠ []

theorem addDep_eq_none_iff {okey : String} {given : List Char × List Char}
    {deps : List ManifestDep} :
    addDep deps okey.toList given.1 given.2 = none ↔ ¬Named okey given := by
  unfold addDep Named
  split
  · next unnamed => simpa [or_iff_not_imp_left] using unnamed
  · next named =>
      refine iff_of_false ?_ ?_
      · split <;> simp
      · simpa [not_or] using named

theorem foldlM_returns_iff {okey : String} {actions : List (Option (List Char × List Char))}
    {deps : List ManifestDep} :
    (∃ out, actions.foldlM (addDepAction okey) deps = some out) ↔
      ∀ action ∈ actions, ∀ given, action = some given → Named okey given := by
  induction actions generalizing deps with
  | nil => simp
  | cons action rest ih =>
      rw [List.foldlM_cons, List.forall_mem_cons]
      cases action with
      | none =>
          rw [addDepAction, Option.bind_eq_bind, Option.bind_some, ih]
          exact (and_iff_right fun given absurd => by cases absurd).symm
      | some given =>
          rw [addDepAction, Option.bind_eq_bind]
          cases added : addDep deps okey.toList given.1 given.2 with
          | none =>
              refine iff_of_false ?_ fun named => ?_
              · intro returns
                obtain ⟨out, isOut⟩ := returns
                cases isOut
              · exact addDep_eq_none_iff.mp added (named.1 given rfl)
          | some deps =>
              have named : Named okey given := by
                by_contra unnamed
                rw [addDep_eq_none_iff.mpr unnamed] at added
                cases added
              rw [Option.bind_some, ih]
              refine (and_iff_right ?_).symm
              intro other same
              cases same
              exact named

end Pkgng
