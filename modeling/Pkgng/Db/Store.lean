import Pkgng.Db.Annotations
import Pkgng.Db.Register
import Pkgng.Lib.NameTable

/-!
# The tables of the local database

The statements of `pkgdb_register_pkg` and `pkgdb_unregister_pkg` on the tables that `pkgdb_init`
creates, with foreign keys.  A package is spread over many tables that share their names; what can
be loaded of it is put together again.
-/

set_option autoImplicit false

namespace Pkgng

open Lib

/-! ## Tables -/

/-- The tables of names. -/
inductive NameKind
  | mtree
  | script
  | option
  | directory
  | category
  | license
  | user
  | group
  | shlib
  | annotations
  | provide
deriving DecidableEq, Repr

/-- The tables between packages and names. -/
inductive LinkKind
  | script
  | option
  | directory
  | category
  | license
  | user
  | group
  | shlibRequired
  | shlibProvided
  | annotations
  | provide
deriving DecidableEq, Repr

namespace LinkKind

def names : LinkKind → NameKind
  | script => .script
  | option => .option
  | directory => .directory
  | category => .category
  | license => .license
  | user => .user
  | group => .group
  | shlibRequired => .shlib
  | shlibProvided => .shlib
  | annotations => .annotations
  | provide => .provide

/-- The reference is declared `NOT NULL`. -/
def notNull : LinkKind → Bool
  | option | shlibRequired | shlibProvided | annotations | provide => true
  | _ => false

/-- The statement is `INSERT OR IGNORE`. -/
def ignores : LinkKind → Bool
  | shlibRequired | shlibProvided => true
  | _ => false

end LinkKind

/-- The column beside a reference: the type of a script, `try` of a directory, the value of an
option, and the reference to the value of an annotation. -/
inductive LinkValue
  | plain
  | number (n : Int)
  | text (value : String)
  | reference (id : Option Int)
deriving DecidableEq, Repr

structure LinkRow where
  package : Int
  name : Option Int
  value : LinkValue
deriving DecidableEq, Repr

/-- The primary key or unique index; NULL is not equal to NULL. -/
def LinkKind.sameKey (kind : LinkKind) (row other : LinkRow) : Bool :=
  match kind with
  | .script => row.package = other.package && row.value = other.value
  | _ => row.package = other.package && row.name = other.name && row.name.isSome

/-- A row of `packages`, of which `columns` holds all but the reference to `mtree`. -/
structure StoredPackage where
  id : Int
  columns : PkgColumns
  mtreeId : Option Int

structure DepRow where
  origin : String
  name : String
  version : String
  package : Int
deriving DecidableEq, Repr

structure FileRow where
  path : String
  sum : Option String
  package : Int
deriving DecidableEq, Repr

structure Store where
  packages : List StoredPackage := []
  names : NameKind → NameTable String := fun _ => []
  links : LinkKind → List LinkRow := fun _ => []
  deps : List DepRow := []
  files : List FileRow := []
  conflicts : List (Int × Int) := []
  search : List (Int × String × String) := []
  lastRowid : Int := 0

/-- What a link says beside the name. -/
inductive LinkedValue
  | plain
  | number (n : Int)
  | text (value : String)
deriving DecidableEq, Repr

/-- The columns that are declared `NOT NULL` are given. -/
def PkgColumns.complete (row : PkgColumns) : Bool :=
  row.comment.isSome && row.desc.isSome && row.arch.isSome && row.maintainer.isSome &&
    row.pkgPrefix.isSome

namespace Store

variable (rowIds : RowIds) (s : Store)

def ids : List Int := s.packages.map StoredPackage.id

def withNames (kind : NameKind) (table : NameTable String) : Store :=
  { s with names := Function.update s.names kind table }

@[simp] theorem withNames_same (kind : NameKind) (table : NameTable String) :
    (s.withNames kind table).names kind = table := Function.update_self ..

theorem withNames_other {kind other : NameKind} (table : NameTable String) (ne : other ≠ kind) :
    (s.withNames kind table).names other = s.names other := Function.update_of_ne ne ..

/-- `INSERT OR IGNORE` into a table of names; the column of `provides` is not declared unique, and
no name is NULL. -/
def intern (kind : NameKind) (name : Option String) : SqliteCode × Store :=
  match name with
  | none => (.done, s)
  | some name =>
      let table :=
        if kind = .provide then s.names kind ++ [(rowIds.next (s.names kind).ids, name)]
        else (s.names kind).intern rowIds.next name
      (.done, s.withNames kind table)

/-- The second column of a link; an annotation refers to its value by id. -/
def encode (kind : LinkKind) : LinkedValue → LinkValue
  | .plain => .plain
  | .number n => .number n
  | .text value =>
      if kind = .annotations then .reference ((s.names .annotations).idOf value) else .text value

def linkRow (kind : LinkKind) (package : Int) (name : String) (value : LinkedValue) : LinkRow where
  package := package
  name := (s.names kind.names).idOf name
  value := s.encode kind value

def withLink (kind : LinkKind) (row : LinkRow) : Store :=
  { s with links := Function.update s.links kind (s.links kind ++ [row]) }

/-- An `INSERT` into a table between packages and names. -/
def link (kind : LinkKind) (package : Int) (name : String) (value : LinkedValue) :
    SqliteCode × Store :=
  let row := s.linkRow kind package name value
  if (row.name = none ∧ kind.notNull = true) ∨ row.value = .reference none ∨
      (s.links kind).any (kind.sameKey row) = true then
    if kind.ignores then (.done, s) else (.constraint, s)
  else if row.package ∉ s.ids then (.constraint, s)
  else (.done, s.withLink kind row)

/-- `DELETE FROM packages`, and what `ON DELETE CASCADE` deletes with it. -/
def deletePackages (gone : StoredPackage → Bool) : Store :=
  let goneIds := (s.packages.filter gone).map StoredPackage.id
  { s with
    packages := s.packages.filter (!gone ·)
    links := fun kind => (s.links kind).filter (·.package ∉ goneIds)
    deps := s.deps.filter (·.package ∉ goneIds)
    files := s.files.filter (·.package ∉ goneIds)
    conflicts := s.conflicts.filter (·.1 ∉ goneIds) }

/-- `INSERT OR REPLACE INTO packages`. -/
def insertPackage (row : PkgColumns) : SqliteCode × Store :=
  if row.complete then
    let id := rowIds.next s.ids
    let mtreeId := row.mtree.bind (s.names .mtree).idOf
    let left := s.deletePackages fun p =>
      p.columns.origin = row.origin && p.columns.name = row.name
    (.done, { left with
      packages := left.packages ++ [⟨id, { row with mtree := none }, mtreeId⟩]
      lastRowid := id })
  else (.constraint, s)

/-- `UPDATE deps SET name=?1, version=?2 WHERE origin=?3`, with the index `deps_unique`. -/
def updateDeps (name version origin : String) : SqliteCode × Store :=
  let deps := s.deps.map fun dep =>
    if dep.origin = origin then { dep with name := name, version := version } else dep
  if (deps.map fun dep => (dep.origin, dep.version, dep.package)).Nodup then
    (.done, { s with deps })
  else (.constraint, s)

def insertDep (row : DepRow) : SqliteCode × Store :=
  if row.package ∉ s.ids ∨ s.deps.any (fun dep => dep.origin = row.origin ∧
      dep.version = row.version ∧ dep.package = row.package) = true then (.constraint, s)
  else (.done, { s with deps := s.deps ++ [row] })

def insertFile (row : FileRow) : SqliteCode × Store :=
  if row.package ∉ s.ids ∨ row.path ∈ s.files.map FileRow.path then (.constraint, s)
  else (.done, { s with files := s.files ++ [row] })

def replaceFile (row : FileRow) : SqliteCode × Store :=
  if row.package ∉ s.ids then (.constraint, s)
  else (.done, { s with files := s.files.filter (·.path ≠ row.path) ++ [row] })

/-- The id of the package with a `uniqueid`. -/
def idOfUid (uniqueid : String) : Option Int :=
  (s.packages.find? fun p => p.columns.name ++ "~" ++ p.columns.origin = uniqueid).map
    StoredPackage.id

def insertConflict (package : Int) (uniqueid : String) : SqliteCode × Store :=
  match s.idOfUid uniqueid with
  | none => (.constraint, s)
  | some other =>
      if package ∉ s.ids ∨ (package, other) ∈ s.conflicts then (.constraint, s)
      else (.done, { s with conflicts := s.conflicts ++ [(package, other)] })

/-- `sqlite3_step` on one of the statements. -/
def exec : PrStmt → SqliteCode × Store
  | .mtree content => s.intern rowIds .mtree content
  | .pkg row => s.insertPackage rowIds row
  | .ftsAppend id name version origin =>
      (.done, { s with search := s.search ++ [(id, name ++ "-" ++ version, origin)] })
  | .depsUpdate name version origin => s.updateDeps name version origin
  | .deps origin name version package => s.insertDep ⟨origin, name, version, package⟩
  | .files path sum package => s.insertFile ⟨path, sum, package⟩
  | .filesReplace path sum package => s.replaceFile ⟨path, sum, package⟩
  | .dirs1 path => s.intern rowIds .directory path
  | .dirs2 package path try_ => s.link .directory package path (.number (if try_ then 1 else 0))
  | .category1 name => s.intern rowIds .category name
  | .category2 package name => s.link .category package name .plain
  | .licenses1 name => s.intern rowIds .license name
  | .licenses2 package name => s.link .license package name .plain
  | .users1 name => s.intern rowIds .user name
  | .users2 package name => s.link .user package name .plain
  | .groups1 name => s.intern rowIds .group name
  | .groups2 package name => s.link .group package name .plain
  | .script1 script => s.intern rowIds .script script
  | .script2 script package type => s.link .script package script (.number type)
  | .option1 opt => s.intern rowIds .option opt
  | .option2 package opt value => s.link .option package opt (.text value)
  | .shlibs1 name => s.intern rowIds .shlib name
  | .shlibsReqd package name => s.link .shlibRequired package name .plain
  | .shlibsProv package name => s.link .shlibProvided package name .plain
  | .annotate1 text => s.intern rowIds .annotations text
  | .annotate2 package tag value => s.link .annotations package tag (.text value)
  | .conflict package uniqueid => s.insertConflict package uniqueid
  | .provide name => s.intern rowIds .provide name
  | .pkgProvide package name => s.link .provide package name .plain

/-- `pkgdb_query_which`: whether a package owns the file. -/
def which (path : String) : WhichCode :=
  if s.files.any (fun file => file.path = path ∧ file.package ∈ s.ids) = true then .found else .stray

/-- SQLite with these tables, where nothing fails but constraints. -/
def sqlite : Sqlite Store where
  begins _ _ := true
  step _ stmt s := s.exec rowIds stmt
  which _ path s := s.which path
  commits _ _ := true
  lastInsertRowid s := s.lastRowid

/-- The references to a table of names; an annotation is referred to by its tag and its value. -/
def references (kind : NameKind) : List (Option Int) :=
  match kind with
  | .mtree => s.packages.map StoredPackage.mtreeId
  | .script => (s.links .script).map LinkRow.name
  | .option => (s.links .option).map LinkRow.name
  | .directory => (s.links .directory).map LinkRow.name
  | .category => (s.links .category).map LinkRow.name
  | .license => (s.links .license).map LinkRow.name
  | .user => (s.links .user).map LinkRow.name
  | .group => (s.links .group).map LinkRow.name
  | .shlib => (s.links .shlibRequired ++ s.links .shlibProvided).map LinkRow.name
  | .annotations => (s.links .annotations).map LinkRow.name
  | .provide => (s.links .provide).map LinkRow.name

/-- `DELETE WHERE id NOT IN` the references, of which a NULL keeps everything. -/
def deleteUnused (kind : NameKind) : Store :=
  if none ∈ s.references kind then s
  else s.withNames kind ((s.names kind).keep fun id => some id ∈ s.references kind)

/-- `pkgdb_unregister_pkg`. -/
def pkgdbUnregisterPkg (id : Int) : Store :=
  [NameKind.directory, .category, .license, .mtree, .user, .group, .shlib, .script].foldl
    deleteUnused (s.deletePackages (·.id = id))

end Store

/-! ## What can be loaded -/

/-- A package as it is loaded from the database. -/
structure Installed where
  row : PkgColumns
  deps : List (String × String × String) := []
  files : List (String × Option String) := []
  links : LinkKind → List (String × LinkedValue) := fun _ => []

namespace Store

variable (s : Store)

def resolveValue : LinkValue → Option LinkedValue
  | .plain => some .plain
  | .number n => some (.number n)
  | .text value => some (.text value)
  | .reference id => (id.bind (s.names .annotations).nameOf).map .text

/-- A link joined with the names. -/
def resolve (kind : LinkKind) (row : LinkRow) : Option (String × LinkedValue) := do
  let name ← row.name.bind (s.names kind.names).nameOf
  let value ← s.resolveValue row.value
  some (name, value)

def linked (kind : LinkKind) (package : Int) : List (String × LinkedValue) :=
  ((s.links kind).filter (·.package = package)).filterMap (s.resolve kind)

def depsOf (package : Int) : List (String × String × String) :=
  (s.deps.filter (·.package = package)).map fun dep => (dep.origin, dep.name, dep.version)

def filesOf (package : Int) : List (String × Option String) :=
  (s.files.filter (·.package = package)).map fun file => (file.path, file.sum)

def installed (p : StoredPackage) : Installed where
  row := { p.columns with mtree := p.mtreeId.bind (s.names .mtree).nameOf }
  deps := s.depsOf p.id
  files := s.filesOf p.id
  links := fun kind => s.linked kind p.id

end Store

end Pkgng
