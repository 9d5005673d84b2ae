import Mathlib.Data.List.Infix
import Pkgng.Cudf.Output
import Pkgng.Jobs.RequestConflicts

/-!
# Writing a CUDF document

`pkg_jobs_cudf_emit_file` sorts every chain of the universe by version, prints a stanza for
each item that the comparison has not dropped, and then the requests.  Whether an element is
followed by a comma or ends its line is decided by what comes next in a table or chain.
-/

set_option autoImplicit false

namespace Pkgng

open Lib

/-- A call that writes to the document: a name, with its version in a conflict, a separator,
the end of a line, or the start of a continuation line. -/
inductive CudfWrite
  | entry (name : List Char)
  | comma
  | newline
  | fold
deriving DecidableEq, Repr

/-- `key: ` and what is written until the next key. -/
structure CudfProperty where
  key : String
  writes : List CudfWrite
deriving DecidableEq, Repr

/-- The properties that are written for an item. -/
structure EmittedStanza where
  item : Addr
  properties : List CudfProperty
deriving DecidableEq, Repr

structure CudfDocument where
  stanzas : List EmittedStanza
  request : List CudfProperty

/-- What `cudf_print_package_name` writes. -/
def cudfPackageName (name : String) : List Char :=
  name.toList.map fun c => if c = '_' then '@' else c

/-- `cudf_print_element` and `cudf_print_conflict`, of the text that they print first. -/
def cudfPrintElement (text : List Char) (hasNext : Bool) (column : Nat) :
    List CudfWrite × Nat :=
  let fold := if 80 < column then [CudfWrite.fold] else []
  let column := if 80 < column then 2 else column
  (fold ++ [.entry text, if hasNext then .comma else .newline],
    column + text.length + if hasNext then 2 else 1)

/-- Elements one after the other, each with `has_next`. -/
def printElements : List (List Char × Bool) → Nat → List CudfWrite × Nat
  | [], column => ([], column)
  | (text, hasNext) :: rest, column =>
      let (first, column) := cudfPrintElement text hasNext column
      let (later, column) := printElements rest column
      (first ++ later, column)

/-- A whole table: `has_next` is `hh.next != NULL`. -/
def tableElements : List (List Char) → List (List Char × Bool)
  | [] => []
  | name :: rest => (name, !rest.isEmpty) :: tableElements rest

/-- Whether the `priority` of an item is `INT_MIN`. -/
abbrev Dropped := Addr → Bool

section Emit

variable (u : JobsUniverse)

/-- The versions of a chain in the conflicts of `self`, from version `ver` on. -/
def chainElements (dropped : Dropped) (self : Addr) : Nat → List Addr → List (List Char × Bool)
  | _, [] => []
  | ver, item :: rest =>
      if item ≠ self ∧ dropped item = false then
        (cudfPackageName (u.pkg self).uid ++ '=' :: (toString ver).toList,
          rest.head?.any (· ≠ self)) :: chainElements dropped self (ver + 1) rest
      else chainElements dropped self (ver + 1) rest

/-- Whether `cudf_emit_pkg` starts a conflicts property. -/
def hasConflicts (dropped : Dropped) (self : Addr) (chain : List Addr) : Bool :=
  !(u.pkg self).conflicts.isEmpty || chain.tail.head?.any (!dropped ·)

def cudfEmitPkg (dropped : Dropped) (self : Addr) (version : Nat) (chain : List Addr) :
    List CudfProperty :=
  let pkg := u.pkg self
  let table (key : String) (names : List (List Char)) : List CudfProperty :=
    if names.isEmpty then [] else [⟨key, (printElements (tableElements names) 0).1⟩]
  [⟨"package", [.entry (cudfPackageName pkg.uid), .newline]⟩,
    ⟨"version", [.entry (toString version).toList, .newline]⟩] ++
  table "depends" (pkg.deps.map fun dep => cudfPackageName dep.origin) ++
  table "provides" (pkg.provides.map cudfPackageName) ++
  (if hasConflicts u dropped self chain then
    [⟨"conflicts", (printElements
      (tableElements (pkg.conflicts.map fun conflict => cudfPackageName conflict.uniqueid) ++
        chainElements u dropped self 1 chain) 0).1⟩]
  else []) ++
  [⟨"installed", [.entry (if pkg.isInstalled then "true" else "false").toList, .newline, .newline]⟩]

/-- `pkg_cudf_version_cmp`: whether the first is not the newer, and who is dropped. -/
def pkgCudfVersionCmp (dropped : Dropped) (a b : Addr) : Bool × Dropped :=
  let ret := pkgVersionCmp (u.pkg a).version (u.pkg b).version
  (ret ≤ 0,
    if ret = 0 then
      if (u.pkg a).type ≠ .installed then Function.update dropped a true
      else if (u.pkg b).type ≠ .installed then Function.update dropped b true
      else dropped
    else dropped)

/-- The chains after `DL_SORT`, each with the items that are dropped by then. -/
def sortChains : Dropped → List (Uid × Addr) → List (List Addr × Dropped)
  | _, [] => []
  | dropped, entry :: rest =>
      let (chain, dropped) := listSortWith (pkgCudfVersionCmp u) dropped (u.chain entry.2)
      (chain, dropped) :: sortChains dropped rest

/-- The stanzas of a sorted chain; only those that are printed are counted. -/
def emitChain (dropped : Dropped) (chain : List Addr) : Nat → List Addr → List EmittedStanza
  | _, [] => []
  | version, item :: rest =>
      if dropped item then emitChain dropped chain version rest
      else
        ⟨item, cudfEmitPkg u dropped item version chain⟩ ::
          emitChain dropped chain (version + 1) rest

/-- A request table: its items in order, and which of them are skipped. -/
structure CudfRequests where
  items : List Addr
  skip : Skips

/-- The elements of a request table: `has_next` is `req->hh.next != NULL`. -/
def requestElements (skip : Skips) : List Addr → List (List Char × Bool)
  | [] => []
  | item :: rest =>
      if skip item then requestElements skip rest
      else
        (cudfPackageName (u.pkg item).origin, !rest.isEmpty) :: requestElements skip rest

/-- One half of `cudf_emit_request_packages`. -/
def emitRequests (key : String) (requests : CudfRequests) : CudfProperty :=
  let elements := requestElements u requests.skip requests.items
  ⟨key, if elements.isEmpty then [.newline] else (printElements elements 0).1⟩

/-- The name of the property for the requests to add. -/
def requestKey : JobsType → String
  | .upgrade => "upgrade"
  | _ => "install"

/-- `pkg_jobs_cudf_emit_file`; sorting the next chain does not wait for what is printed for
the last one. -/
def pkgJobsCudfEmitFile (dropped : Dropped) (type : JobsType) (add delete : CudfRequests) :
    CudfDocument where
  stanzas := (sortChains u dropped u.items).flatMap fun sorted =>
    emitChain u sorted.2 sorted.1 1 sorted.1
  request := [emitRequests u (requestKey type) add, emitRequests u "remove" delete]

end Emit

end Pkgng
