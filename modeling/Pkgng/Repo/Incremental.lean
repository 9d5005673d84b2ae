import Mathlib.Data.List.Nodup
import Pkgng.Lib.CStrings
import Pkgng.Lib.Replacing
import Pkgng.Lib.Savepoint
import Pkgng.Repo.DigestRecord

/-!
# The incremental catalogue update

`pkg_repo_binary_update_incremental`: the lines of the digests file are compared with
the rows of `packages`, and the difference is removed and added in one savepoint.
-/

set_option autoImplicit false

namespace Pkgng

open Lib

/-! ## The table `packages` of a repository -/

/-- A row; `body` stands for the columns and child rows that the update writes but
does not read. -/
structure RepoRow where
  origin : Text
  manifestdigest : Option Text
  olddigest : Option Text := none
  cksum : Option Text
  body : Text := []
  /-- Ghost: inserted by the update under way. -/
  added : Bool := false
deriving DecidableEq, Repr

/-- The new row violates a unique index together with the old one. -/
def RepoRow.Clashes (new old : RepoRow) : Prop :=
  new.origin = old.origin ∨
    new.manifestdigest.isSome = true ∧ new.manifestdigest = old.manifestdigest

instance : DecidableRel RepoRow.Clashes := fun new old => by
  unfold RepoRow.Clashes
  infer_instance

/-- The rows, no two of which clash. -/
structure RepoTable where
  rows : List RepoRow
  unique : rows.Pairwise fun row other => ¬row.Clashes other ∧ ¬other.Clashes row

namespace RepoTable

def empty : RepoTable := ⟨[], List.Pairwise.nil⟩

/-- `DELETE FROM packages WHERE origin=?1`. -/
def delete (table : RepoTable) (origin : Text) : RepoTable where
  rows := table.rows.filter fun row => row.origin ≠ origin
  unique := table.unique.filter _

/-- `INSERT OR REPLACE INTO packages`. -/
def insert (table : RepoTable) (new : RepoRow) : RepoTable where
  rows := replaceInto RepoRow.Clashes table.rows new
  unique := by
    rw [replaceInto, List.pairwise_append]
    refine ⟨table.unique.filter _, List.pairwise_singleton _ _, ?_⟩
    intro old member other isNew
    rw [List.mem_singleton.mp isNew]
    have apart : ¬new.Clashes old := by simpa using (List.mem_filter.mp member).2
    refine ⟨?_, apart⟩
    rintro (origin | ⟨digest, same⟩)
    · exact apart (Or.inl origin.symm)
    · exact apart (Or.inr ⟨by rwa [← same], same.symm⟩)

def origins (table : RepoTable) : List Text := table.rows.map RepoRow.origin

/-- The table as the next update finds it. -/
def settled (table : RepoTable) : RepoTable where
  rows := table.rows.map fun row => { row with added := false }
  unique := by
    rw [List.pairwise_map]
    exact table.unique

end RepoTable

/-! ## What the update reads -/

/-- The return codes of the update. -/
inductive RepoRc
  | ok
  | uptodate
  | fatal
  | finished
deriving DecidableEq, Repr

/-- What `pkg_parse_manifest` makes of a part of the catalogue. -/
structure Manifest where
  origin : Option Text
  arch : Option Text
  cksum : Option Text
  body : Text := []
  /-- The answer of `pkg_is_valid`. -/
  valid : Bool := true
  /-- What `pkg_checksum_calculate` computes. -/
  calculated : Option Text := none
deriving DecidableEq, Repr

/-- The mapped catalogue: its size, and what is read at an offset with a length. -/
structure Catalogue where
  size : Nat
  manifestAt : Nat → Nat → Option Manifest

/-- How `INSERT OR REPLACE INTO packages` ends; a constraint that the replacement does
not resolve is violated by every try. -/
inductive InsertResult
  | done
  | constraint
  | error
deriving DecidableEq, Repr

/-- How the statements end that `pkg_repo_binary_add_pkg` runs after the insertion.
Some of them have the conflict clause `OR ROLLBACK`. -/
inductive ChildResult
  | done
  | error
  | rollback
deriving DecidableEq, Repr

/-- A file of the repository as it arrives, or the code of a failed fetch. -/
inductive Fetched (α : Type)
  | file (content : α)
  | uptodate
  | fatal

/-- What an update meets besides the database: the fetched files, the outcome of each
statement, and the functions it calls.  The lines are those of `getline`. -/
structure UpdateEnv where
  digests : Fetched (List Text)
  manifests : Fetched Catalogue
  /-- `repo->ops->open` succeeds, and does after `repo->ops->create`. -/
  opens : Bool := true
  recreates : Bool := true
  selects : Bool := true
  begins : Bool := true
  removes : Nat → Bool := fun _ => true
  inserts : Nat → InsertResult := fun _ => .done
  children : Nat → ChildResult := fun _ => .done
  releases : Bool := true
  /-- `none` where `errno` is set. -/
  strtoul : Text → Option Nat
  checksumIsValid : Text → Bool
  isValidAbi : Text → Bool
  /-- What `length` and `checksum` still point to when the line with this number has
  no such field; they are not initialised. -/
  leftover : Nat → Option Text × Option Text := fun _ => (none, none)

def ssizeMax : Nat := 9223372036854775807

def Catalogue.Usable (catalogue : Catalogue) : Prop :=
  0 < catalogue.size ∧ catalogue.size < ssizeMax

instance (catalogue : Catalogue) : Decidable catalogue.Usable := by
  unfold Catalogue.Usable
  infer_instance

/-! ## Reading the digests -/

structure DigestFields where
  origin : Option Text
  digest : Option Text
  offset : Option Text
  length : Option Text
  checksum : Option Text
deriving DecidableEq, Repr

def digestFields (leftover : Option Text × Option Text) (line : Text) : DigestFields :=
  let (origin, p) := strsep [':'] (some line)
  let (digest, p) := strsep [':'] p
  let (offset, p) := strsep [':'] p
  let (_, p) := strsep [':'] p
  let (length, p) := if p.isSome then strsep [':', '\n'] p else (leftover.1, p)
  let (checksum, _) := if p.isSome then strsep [':', '\n'] p else (leftover.2, p)
  { origin, digest, offset, length, checksum }

/-- `struct pkg_increment_task_item`. -/
structure TaskItem where
  origin : Text
  digest : Text := []
  offset : Nat := 0
  length : Nat := 0
  checksum : Option Text := none
deriving DecidableEq, Repr

/-- The item for a line; `none` where the format is refused. -/
def digestItem (env : UpdateEnv) (number : Nat) (line : Text) : Option TaskItem := do
  let fields := digestFields (env.leftover number) line
  let origin ← fields.origin
  let digest ← fields.digest
  let offset ← fields.offset
  let numOffset ← env.strtoul offset
  let numLength ← match fields.length with
    | some length => env.strtoul length
    | none => some 0
  pure { origin, digest, offset := numOffset, length := numLength, checksum := fields.checksum }

/-- `ldel` and `ladd`. -/
structure Tasks where
  ldel : List TaskItem
  ladd : List TaskItem := []

/-- The comparison of a line with the rows. -/
def Tasks.compare (tasks : Tasks) (item : TaskItem) : Tasks :=
  match tasks.ldel.find? fun old => old.origin = item.origin with
  | none => { tasks with ladd := tasks.ladd ++ [item] }
  | some old =>
      { ldel := tasks.ldel.erase old
        ladd :=
          if item.checksum.isNone ∨ old.checksum.isNone ∨ item.checksum ≠ old.checksum then
            tasks.ladd ++ [item]
          else tasks.ladd }

/-- The items of all lines; `none` where one is refused. -/
def digestItems (env : UpdateEnv) (lines : List Text) : Option (List TaskItem) :=
  lines.zipIdx.mapM fun numbered => digestItem env numbered.2 numbered.1

/-- The tasks that the rows and the items make. -/
def updateTasks (table : RepoTable) (items : List TaskItem) : Tasks :=
  items.foldl Tasks.compare
    { ldel := table.rows.map fun row => { origin := row.origin, checksum := row.cksum } }

/-- Whether the digests have the format of old repositories; `none` where the first
line has no digest. -/
def legacyRepo (env : UpdateEnv) (lines : List Text) : Option Bool :=
  match lines.head? with
  | none => some false
  | some line =>
      let (_, p) := strsep [':'] (some line)
      (strsep [':'] p).1.map fun digest => !env.checksumIsValid digest

/-! ## The transaction -/

/-- The row that `pkg_repo_binary_add_from_manifest` hands to
`pkg_repo_binary_add_pkg`. -/
def manifestRow (env : UpdateEnv) (legacy : Bool) (catalogue : Catalogue) (item : TaskItem) :
    Option RepoRow := do
  let length := if item.length ≠ 0 then item.length else catalogue.size - item.offset
  let pkg ← catalogue.manifestAt item.offset length
  let arch ← pkg.arch
  if pkg.valid ∧ pkg.origin = some item.origin ∧ env.isValidAbi arch then
    some
      { origin := item.origin
        manifestdigest := if legacy then pkg.calculated else some item.digest
        olddigest := if legacy then some item.digest else none
        cksum := pkg.cksum
        body := pkg.body
        added := true }
  else none

/-- `pkg_repo_binary_add_pkg` with `forced`.  After a constraint error the row of the
origin is deleted and the insertion tried again, which fails the same way and then
finds no row. -/
def pkgRepoBinaryAddPkg (env : UpdateEnv) (number : Nat) (row : RepoRow)
    (conn : Connection RepoTable) : RepoRc × Connection RepoTable :=
  match env.inserts number with
  | .error => (.fatal, conn)
  | .constraint =>
      if row.origin ∈ conn.now.origins then (.fatal, conn.write (conn.now.delete row.origin))
      else (.fatal, conn)
  | .done =>
      let conn := conn.write (conn.now.insert row)
      match env.children number with
      | .done => (.ok, conn)
      | .error => (.fatal, conn)
      | .rollback => (.fatal, conn.abort)

/-- A turn of the loop over `ldel`. -/
def removeTask (env : UpdateEnv) (state : RepoRc × Connection RepoTable)
    (task : TaskItem × Nat) : RepoRc × Connection RepoTable :=
  if state.1 = .ok then
    if env.removes task.2 then (.ok, state.2.write (state.2.now.delete task.1.origin))
    else (.fatal, state.2)
  else state

/-- A turn of the loop over `ladd`. -/
def addTask (env : UpdateEnv) (legacy : Bool) (catalogue : Catalogue)
    (state : RepoRc × Connection RepoTable) (task : TaskItem × Nat) :
    RepoRc × Connection RepoTable :=
  if state.1 = .ok then
    match manifestRow env legacy catalogue task.1 with
    | none => (.fatal, state.2)
    | some row => pkgRepoBinaryAddPkg env task.2 row state.2
  else state

/-- The end of the function, with the savepoint open. -/
def finishTransaction (env : UpdateEnv) (state : RepoRc × Connection RepoTable) :
    RepoRc × RepoTable :=
  let conn := if state.1 ≠ .ok then state.2.rollbackTo else state.2
  if env.releases then
    match conn.release with
    | some conn => (state.1, conn.committed)
    | none => (.fatal, conn.committed)
  else (.fatal, conn.committed)

/-- From the transaction's begin on: the return code, and the rows on disk. -/
def updateTransaction (env : UpdateEnv) (legacy : Bool) (catalogue : Catalogue) (tasks : Tasks)
    (table : RepoTable) : RepoRc × RepoTable :=
  if env.begins then
    let begun := (Connection.connect table).begin
    let removed := tasks.ldel.zipIdx.foldl (removeTask env) (.ok, begun)
    -- An empty or too large catalogue leaves with the code of the removals.
    if catalogue.Usable then
      finishTransaction env
        (tasks.ladd.zipIdx.foldl (addTask env legacy catalogue) removed)
    else finishTransaction env removed
  else (.fatal, table)

/-- The part that works on the open database. -/
def updateRows (env : UpdateEnv) (legacy : Bool) (lines : List Text) (catalogue : Catalogue)
    (table : RepoTable) : RepoRc × RepoTable :=
  if env.selects then
    match digestItems env lines with
    | none => (.fatal, table)
    | some items => updateTransaction env legacy catalogue (updateTasks table items) table
  else (.fatal, table)

/-- `pkg_repo_binary_update_incremental`, not forced, on a database without the marker
of an unfinished update.  `pkg_repo_binary_init_update` creates the database anew where
it does not open. -/
def pkgRepoBinaryUpdateIncremental (env : UpdateEnv) (table : RepoTable) : RepoRc × RepoTable :=
  match env.digests, env.manifests with
  | .uptodate, _ => (.uptodate, table)
  | .fatal, _ => (.fatal, table)
  | .file _, .uptodate => (.uptodate, table)
  | .file _, .fatal => (.fatal, table)
  | .file lines, .file catalogue =>
      match legacyRepo env lines with
      | none => (.fatal, table)
      | some legacy =>
          if env.opens then updateRows env legacy lines catalogue table
          else if env.recreates then updateRows env legacy lines catalogue RepoTable.empty
          else (.fatal, RepoTable.empty)

end Pkgng
