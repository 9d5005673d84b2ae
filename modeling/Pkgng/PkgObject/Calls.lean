import Pkgng.Lib.HashFree
import Pkgng.Lib.Ucl
import Pkgng.Manifest.Options
import Pkgng.Manifest.Texts
import Pkgng.Package

/-!
# The package object

`struct pkg` with all that `pkg_set` and the `pkg_add` functions write: the fields, the scripts
and the eleven tables.  A table is the list of its entries in the order of their insertion; only
that of the options, whose entries may be inserted again, has its links.  A call that fails an
assertion, or does not return, is none.
-/

set_option autoImplicit false

namespace Pkgng

open Lib

inductive PkgAttr
  | origin
  | name
  | version
  | comment
  | desc
  | mtree
  | message
  | arch
  | maintainer
  | www
  | installPath
  | repopath
  | cksum
  | oldVersion
  | reponame
  | repourl
  | digest
  | reason
  | flatsize
  | oldFlatsize
  | pkgsize
  | licenseLogic
  | automatic
  | locked
  | rowid
  | time
  | annotations
  | licenses
  | categories
  | uniqueid
  | oldDigest
deriving DecidableEq, Repr

/-- `pkg_keys`; `PKG_PREFIX` is `installPath` here. -/
def pkgKeys : PkgAttr → String × UclType
  | .origin => ("origin", .string)
  | .name => ("name", .string)
  | .version => ("version", .string)
  | .comment => ("comment", .string)
  | .desc => ("desc", .string)
  | .mtree => ("mtree", .string)
  | .message => ("message", .string)
  | .arch => ("arch", .string)
  | .maintainer => ("maintainer", .string)
  | .www => ("www", .string)
  | .installPath => ("prefix", .string)
  | .repopath => ("repopath", .string)
  | .cksum => ("sum", .string)
  | .oldVersion => ("oldversion", .string)
  | .reponame => ("reponame", .string)
  | .repourl => ("repourl", .string)
  | .digest => ("digest", .string)
  | .reason => ("reason", .string)
  | .flatsize => ("flatsize", .int)
  | .oldFlatsize => ("oldflatsize", .int)
  | .pkgsize => ("pkgsize", .int)
  | .licenseLogic => ("licenselogic", .int)
  | .automatic => ("automatic", .boolean)
  | .locked => ("locked", .boolean)
  | .rowid => ("rowid", .int)
  | .time => ("time", .int)
  | .annotations => ("annotations", .object)
  | .licenses => ("licenses", .array)
  | .categories => ("categories", .array)
  | .uniqueid => ("uniqueid", .string)
  | .oldDigest => ("olddigest", .string)

/-- The values of the fields: annotations are an object of strings, licenses and categories
arrays of strings. -/
inductive FieldValue
  | string (text : String)
  | boolean (value : Bool)
  | int (value : Int)
  | object (fields : List (String × String))
  | array (elements : List String)
deriving DecidableEq, Repr

/-- `struct pkg_dep`. -/
structure DepCell where
  name : String
  origin : String
  version : String
  uid : Uid
  locked : Bool
deriving DecidableEq, Repr

/-- `struct pkg_file`. -/
structure FileCell where
  path : String
  sum : String
  uname : String
  gname : String
  perm : Nat
deriving DecidableEq, Repr

/-- `struct pkg_dir`. -/
structure DirCell where
  path : String
  uname : String
  gname : String
  perm : Nat
  try_ : Bool
deriving DecidableEq, Repr

/-- `struct pkg_user` and `struct pkg_group`, a name with its line of the password or group
file. -/
structure AccountCell where
  name : String
  idstr : String
deriving DecidableEq, Repr

/-- The `PKG_LOAD` bits. -/
inductive LoadFlag
  | deps
  | rdeps
  | files
  | scripts
  | options
  | mtree
  | dirs
  | categories
  | licenses
  | users
  | groups
  | shlibsRequired
  | shlibsProvided
  | annotations
  | conflicts
  | provides
deriving DecidableEq, Repr

/-- `struct pkg`; a script without a buffer is none. -/
structure PkgObject where
  fields : PkgAttr → Option FieldValue := fun _ => none
  scripts : PkgScript → Option String := fun _ => none
  deps : List DepCell := []
  rdeps : List DepCell := []
  files : List FileCell := []
  dirs : List DirCell := []
  options : PkgOptions := {}
  /-- The backward links of the options. -/
  optionPrev : Nat → Option Nat := fun _ => none
  users : List AccountCell := []
  groups : List AccountCell := []
  shlibsRequired : List String := []
  shlibsProvided : List String := []
  conflicts : List String := []
  provides : List String := []
  flags : LoadFlag → Bool := fun _ => false
  rootfd : Option Nat := none
  type : PkgType

def pkgNew (type : PkgType) : PkgObject := { type := type }

/-- `strlcpy` into a buffer of the size. -/
def strlcpy (size : Nat) (text : String) : String := String.ofList (text.toList.take (size - 1))

/-- `MAXLOGNAME`, where the system has none. -/
def maxLogName : Nat := 64

/-! ## The calls -/

namespace PkgObject

def setField (pkg : PkgObject) (attr : PkgAttr) (value : Option FieldValue) : PkgObject :=
  { pkg with fields := Function.update pkg.fields attr value }

/-- `pkg_vset` for one attribute; no value is a null pointer. -/
def set (pkg : PkgObject) (attr : PkgAttr) (value : Option FieldValue) :
    Option (Epkg × PkgObject) :=
  match (pkgKeys attr).2, value with
  | .string, none =>
      -- `STARTS_WITH` reads the text of a mtree before it is known not to be null.
      if attr = .mtree then none else some (.ok, pkg.setField attr none)
  | .string, some (.string text) =>
      let data := if attr = .mtree ∧ ¬text.startsWith "#mtree" then "#mtree\n" ++ text else text
      some (.ok, pkg.setField attr (some (.string data)))
  | .boolean, some (.boolean value) => some (.ok, pkg.setField attr (some (.boolean value)))
  | .int, some (.int value) => some (.ok, pkg.setField attr (some (.int value)))
  | .object, some (.object fields) => some (.ok, pkg.setField attr (some (.object fields)))
  | .array, some (.array elements) => some (.ok, pkg.setField attr (some (.array elements)))
  -- `ucl_object_replace_key` inserts no null.
  | .object, none => some (.ok, pkg)
  | .array, none => some (.ok, pkg)
  | _, _ => none

/-- The code for a duplicate, which is ignored, in developer mode with an error. -/
def duplicate (developer : Bool) : Epkg := if developer then .fatal else .ok

/-- What the functions that add an entry share: the assertion, the search for a duplicate, and
the insertion. -/
def addEntry (pkg : PkgObject) (asserted taken : Bool) (code : Epkg) (added : PkgObject) :
    Option (Epkg × PkgObject) :=
  if !asserted then none else if taken then some (code, pkg) else some (.ok, added)

section Calls

variable (developer : Bool) (pkg : PkgObject)

/-- The loops of `pkg_addlicense` and `pkg_addcategory`, and the array behind them. -/
def addElement (attr : PkgAttr) (name : String) : Option (Epkg × PkgObject) :=
  let elements :=
    match pkg.fields attr with
    | some (.array elements) => elements
    | _ => []
  addEntry pkg (name ≠ "") (elements.contains name) (duplicate developer)
    (pkg.setField attr (some (.array (elements ++ [name]))))

def addlicense (name : String) : Option (Epkg × PkgObject) :=
  addElement developer pkg .licenses name

def addcategory (name : String) : Option (Epkg × PkgObject) :=
  addElement developer pkg .categories name

/-- `pkg_addannotation`. -/
def addannotationTag (tag value : String) : Option (Epkg × PkgObject) :=
  let fields :=
    match pkg.fields .annotations with
    | some (.object fields) => fields
    | _ => []
  -- A duplicate is no error here, in developer mode neither.
  addEntry pkg true (fields.any fun field => field.1 = tag) .ok
    (pkg.setField .annotations (some (.object (fields ++ [(tag, value)]))))

/-- An entry of `pkg->users` or `pkg->groups`. -/
def account (name : String) (idstr : Option String) : AccountCell :=
  ⟨strlcpy maxLogName name, strlcpy 8192 (idstr.getD "")⟩

def adduid (name : String) (uidstr : Option String) : Option (Epkg × PkgObject) :=
  addEntry pkg (name ≠ "") (pkg.users.any fun u => u.name = name) (duplicate developer)
    { pkg with users := pkg.users ++ [account name uidstr] }

def addgid (name : String) (gidstr : Option String) : Option (Epkg × PkgObject) :=
  addEntry pkg (name ≠ "") (pkg.groups.any fun g => g.name = name) (duplicate developer)
    { pkg with groups := pkg.groups ++ [account name gidstr] }

def adddep (name origin version : String) (locked : Bool) : Option (Epkg × PkgObject) :=
  addEntry pkg (name ≠ "" ∧ origin ≠ "" ∧ version ≠ "")
    (pkg.deps.any fun d => d.origin = origin) (duplicate developer)
    { pkg with deps := pkg.deps ++ [⟨name, origin, version, name ++ "~" ++ origin, locked⟩] }

/-- `pkg_addrdep`, which looks for no duplicate. -/
def addrdep (name origin version : String) (locked : Bool) : Option (Epkg × PkgObject) :=
  addEntry pkg (name ≠ "" ∧ origin ≠ "" ∧ version ≠ "") false .ok
    { pkg with rdeps := pkg.rdeps ++ [⟨name, origin, version, name ++ "~" ++ origin, locked⟩] }

/-- `pkg_addfile_attr`. -/
def addfile (path : String) (sha256 uname gname : Option String) (perm : Nat)
    (checkDuplicates : Bool) : Option (Epkg × PkgObject) :=
  addEntry pkg (path ≠ "") (checkDuplicates && pkg.files.any fun f => f.path = path)
    (duplicate developer)
    { pkg with files := pkg.files ++ [
        { path := strlcpy maxPathLen path, sum := strlcpy 65 (sha256.getD "")
          uname := strlcpy maxLogName (uname.getD ""), gname := strlcpy maxLogName (gname.getD "")
          perm := perm }] }

/-- `pkg_adddir_attr`. -/
def adddir (path : String) (uname gname : Option String) (perm : Nat)
    (try_ checkDuplicates : Bool) : Option (Epkg × PkgObject) :=
  addEntry pkg (path ≠ "") (checkDuplicates && pkg.dirs.any fun d => d.path = path)
    (duplicate developer)
    { pkg with dirs := pkg.dirs ++ [
        { path := strlcpy maxPathLen path, uname := strlcpy maxLogName (uname.getD "")
          gname := strlcpy maxLogName (gname.getD ""), perm := perm, try_ := try_ }] }

/-- `pkg_addshlib_required`; a duplicate is silently ignored. -/
def addshlibRequired (name : String) : Option (Epkg × PkgObject) :=
  addEntry pkg (name ≠ "") (pkg.shlibsRequired.contains name) .ok
    { pkg with shlibsRequired := pkg.shlibsRequired ++ [name] }

def addshlibProvided (name : String) : Option (Epkg × PkgObject) :=
  addEntry pkg (name ≠ "") (pkg.shlibsProvided.contains name) .ok
    { pkg with shlibsProvided := pkg.shlibsProvided ++ [name] }

def addconflict (uniqueid : String) : Option (Epkg × PkgObject) :=
  addEntry pkg (uniqueid ≠ "") (pkg.conflicts.contains uniqueid) .ok
    { pkg with conflicts := pkg.conflicts ++ [uniqueid] }

def addprovide (name : String) : Option (Epkg × PkgObject) :=
  addEntry pkg (name ≠ "") (pkg.provides.contains name) .ok
    { pkg with provides := pkg.provides ++ [name] }

def addscript (data : String) (type : PkgScript) : Option (Epkg × PkgObject) :=
  some (.ok, { pkg with scripts := Function.update pkg.scripts type (some data) })

/-- The names of script files. -/
def scriptOfFile (filename : String) : Option PkgScript :=
  if filename = "pkg-pre-install" ∨ filename = "+PRE_INSTALL" then some .preInstall
  else if filename = "pkg-post-install" ∨ filename = "+POST_INSTALL" then some .postInstall
  else if filename = "pkg-install" ∨ filename = "+INSTALL" then some .install
  else if filename = "pkg-pre-deinstall" ∨ filename = "+PRE_DEINSTALL" then some .preDeinstall
  else if filename = "pkg-post-deinstall" ∨ filename = "+POST_DEINSTALL" then
    some .postDeinstall
  else if filename = "pkg-deinstall" ∨ filename = "+DEINSTALL" then some .deinstall
  else if filename = "pkg-pre-upgrade" ∨ filename = "+PRE_UPGRADE" then some .preUpgrade
  else if filename = "pkg-post-upgrade" ∨ filename = "+POST_UPGRADE" then some .postUpgrade
  else if filename = "pkg-upgrade" ∨ filename = "+UPGRADE" then some .upgrade
  else none

/-- `pkg_addscript_fileat` and `pkg_addscript_file`; no content is a file that is not read. -/
def addscriptFile (filename : String) (content : Option String) : Option (Epkg × PkgObject) :=
  match content, scriptOfFile filename with
  | some data, some type => addscript pkg data type
  | _, _ => some (.fatal, pkg)

def appendscript (cmd : String) (type : PkgScript) : Option (Epkg × PkgObject) :=
  if cmd = "" then none
  else
    match pkg.scripts type with
    | none => addscript pkg cmd type
    | some text => addscript pkg (text ++ cmd) type

end Calls

end PkgObject

/-- The entry that a call for an option inserts, new or found; none for a duplicate. -/
def OptionCall.inserted (bucket : List Char → Nat) (call : OptionCall) (s : PkgOptions) :
    Option Nat :=
  match s.table.find bucket s.entries.length call.name with
  | some (some a) =>
      match s.entries[a]? with
      | some o => if (o.get call.field).isSome then none else some a
      | none => none
  | _ => some s.entries.length

/-- `pkg_addoption`, `pkg_addoption_default` and `pkg_addoption_description`. -/
def PkgObject.addoption (bucket : List Char → Nat) (developer : Bool) (pkg : PkgObject)
    (call : OptionCall) : Option (Epkg × PkgObject) :=
  (call.run bucket pkg.options).map fun options =>
    match call.inserted bucket pkg.options with
    | some a =>
        (.ok, { pkg with options := options
                         optionPrev := pkg.options.table.addPrev a pkg.optionPrev })
    | none => (PkgObject.duplicate developer, { pkg with options := options })

inductive PkgCall
  | set (attr : PkgAttr) (value : Option FieldValue)
  | addlicense (name : String)
  | addcategory (name : String)
  | addannotationTag (tag value : String)
  | adduid (name : String) (uidstr : Option String)
  | addgid (name : String) (gidstr : Option String)
  | adddep (name origin version : String) (locked : Bool)
  | addrdep (name origin version : String) (locked : Bool)
  | addfile (path : String) (sha256 uname gname : Option String) (perm : Nat)
      (checkDuplicates : Bool)
  | adddir (path : String) (uname gname : Option String) (perm : Nat)
      (try_ checkDuplicates : Bool)
  | addshlibRequired (name : String)
  | addshlibProvided (name : String)
  | addconflict (uniqueid : String)
  | addprovide (name : String)
  | addscript (data : String) (type : PkgScript)
  | addscriptFile (filename : String) (content : Option String)
  | appendscript (cmd : String) (type : PkgScript)
  | addoption (call : OptionCall)
  /-- `pkg->flags |= flag`, when the database has loaded a list. -/
  | loaded (flag : LoadFlag)

section Run

variable (bucket : List Char → Nat) (developer : Bool)

def PkgCall.run (pkg : PkgObject) : PkgCall → Option (Epkg × PkgObject)
  | .set attr value => pkg.set attr value
  | .addlicense name => pkg.addlicense developer name
  | .addcategory name => pkg.addcategory developer name
  | .addannotationTag tag value => pkg.addannotationTag tag value
  | .adduid name uidstr => pkg.adduid developer name uidstr
  | .addgid name gidstr => pkg.addgid developer name gidstr
  | .adddep name origin version locked => pkg.adddep developer name origin version locked
  | .addrdep name origin version locked => pkg.addrdep name origin version locked
  | .addfile path sha256 uname gname perm checkDuplicates =>
      pkg.addfile developer path sha256 uname gname perm checkDuplicates
  | .adddir path uname gname perm try_ checkDuplicates =>
      pkg.adddir developer path uname gname perm try_ checkDuplicates
  | .addshlibRequired name => pkg.addshlibRequired name
  | .addshlibProvided name => pkg.addshlibProvided name
  | .addconflict uniqueid => pkg.addconflict uniqueid
  | .addprovide name => pkg.addprovide name
  | .addscript data type => pkg.addscript data type
  | .addscriptFile filename content => pkg.addscriptFile filename content
  | .appendscript cmd type => pkg.appendscript cmd type
  | .addoption call => pkg.addoption bucket developer call
  | .loaded flag => some (.ok, { pkg with flags := Function.update pkg.flags flag true })

/-- The package behind a sequence of calls. -/
def runPkgCalls (calls : List PkgCall) (pkg : PkgObject) : Option PkgObject :=
  calls.foldlM (fun pkg call => (call.run bucket developer pkg).map Prod.snd) pkg

end Run

end Pkgng
