import Pkgng.Lib.Ucl
import Pkgng.Manifest.Urlencode

/-!
# The texts of a manifest

What `pkg_emit_object` writes of the description, the message, the scripts and the paths of
files and directories, and what `parse_manifest` reads of it.  The object is handed over as
it is; the other fields are left out.
-/

set_option autoImplicit false

namespace Pkgng

open Lib

inductive PkgScript
  | preInstall
  | postInstall
  | preDeinstall
  | postDeinstall
  | preUpgrade
  | postUpgrade
  | install
  | deinstall
  | upgrade
deriving DecidableEq, Repr

def allScripts : List PkgScript :=
  [.preInstall, .postInstall, .preDeinstall, .postDeinstall, .preUpgrade, .postUpgrade, .install,
    .deinstall, .upgrade]

/-- The name that `pkg_emit_object` gives a script. -/
def PkgScript.name : PkgScript → String
  | .preInstall => "pre-install"
  | .install => "install"
  | .postInstall => "post-install"
  | .preUpgrade => "pre-upgrade"
  | .upgrade => "upgrade"
  | .postUpgrade => "post-upgrade"
  | .preDeinstall => "pre-deinstall"
  | .deinstall => "deinstall"
  | .postDeinstall => "post-deinstall"

/-- `script_type_str`; none is `PKG_SCRIPT_UNKNOWN`. -/
def scriptTypeStr (str : String) : Option PkgScript :=
  if str = "pre-install" then some .preInstall
  else if str = "install" then some .install
  else if str = "post-install" then some .postInstall
  else if str = "pre-upgrade" then some .preUpgrade
  else if str = "upgrade" then some .upgrade
  else if str = "post-upgrade" then some .postUpgrade
  else if str = "pre-deinstall" then some .preDeinstall
  else if str = "deinstall" then some .deinstall
  else if str = "post-deinstall" then some .postDeinstall
  else none

structure PkgFile where
  path : List Char
  sum : List Char := []
deriving DecidableEq, Repr

structure PkgDir where
  path : List Char
  try_ : Bool := false
deriving DecidableEq, Repr

/-- The texts of a package. -/
structure ManifestTexts where
  desc : Option (List Char) := none
  message : Option (List Char) := none
  scripts : PkgScript → Option (List Char) := fun _ => none
  files : List PkgFile := []
  dirs : List PkgDir := []

/-- The flags of `pkg_emit_object`. -/
structure EmitFlags where
  compact : Bool := false
  nofiles : Bool := false
deriving DecidableEq, Repr

/-! ## Emitting -/

/-- A string object of an encoded and trimmed text. -/
def encodedText (text : List Char) : Ucl := .string (uclTrim (urlencode text))

/-- The map that is made when its first entry is inserted. -/
def mapOf (fields : List (String × Ucl)) : Option Ucl :=
  if fields = [] then none else some (.object fields)

def emitFile (file : PkgFile) : String × Ucl :=
  let pkgSum := if file.sum = [] then ['-'] else file.sum
  (String.ofList (urlencode file.path), Ucl.fromString pkgSum)

def emitDir (dir : PkgDir) : String × Ucl :=
  (String.ofList (urlencode dir.path), Ucl.fromString (if dir.try_ then ['y'] else ['n']))

def emitScripts (scripts : PkgScript → Option (List Char)) (types : List PkgScript) :
    List (String × Ucl) :=
  types.filterMap fun type => (scripts type).map fun data => (type.name, encodedText data)

def emitMessage (message : Option (List Char)) : Option Ucl :=
  message.bind fun text => if text = [] then none else some (encodedText text)

def emitObject (flags : EmitFlags) (pkg : ManifestTexts) : Ucl :=
  let lists := !flags.compact && !flags.nofiles
  Ucl.ofFields
    [("desc", pkg.desc.map encodedText),
      ("files", if lists then mapOf (pkg.files.map emitFile) else none),
      ("directories", if lists then mapOf (pkg.dirs.map emitDir) else none),
      ("scripts", if flags.compact then none else mapOf (emitScripts pkg.scripts allScripts)),
      ("message", emitMessage pkg.message)]

/-! ## Parsing -/

/-- `sbuf_data`; what is read of an unfinished buffer is not defined. -/
def sbufData (sbuf : List Char × Bool) : Option (List Char) :=
  if sbuf.2 then some (cstring sbuf.1) else none

/-- `pkg_addfile_attr` without the check for duplicates; the assertion fails for an empty
path. -/
def addFile (pkg : ManifestTexts) (path sum : List Char) : Option ManifestTexts :=
  if path = [] then none
  else some { pkg with files := pkg.files ++ [{ path := path.take 1023, sum := sum }] }

/-- `pkg_adddir_attr`. -/
def addDir (pkg : ManifestTexts) (path : List Char) (try_ : Bool) : Option ManifestTexts :=
  if path = [] then none
  else some { pkg with dirs := pkg.dirs ++ [{ path := path.take 1023, try_ := try_ }] }

def addScript (pkg : ManifestTexts) (data : List Char) (type : PkgScript) : ManifestTexts :=
  { pkg with scripts := Function.update pkg.scripts type (some data) }

inductive ManifestAttr
  | desc
  | directories
  | files
  | message
  | scripts
deriving DecidableEq, Repr

def manifestKeys : List (String × ManifestAttr × UclType) :=
  [("desc", .desc, .string), ("directories", .directories, .object), ("files", .files, .object),
    ("message", .message, .string), ("scripts", .scripts, .object)]

/-- `pkg_string`; only the description is decoded. -/
def pkgString (pkg : ManifestTexts) (str : List Char) : ManifestAttr → ManifestTexts
  | .desc => { pkg with desc := some (cstring (urldecode str).1) }
  | .message => { pkg with message := some str }
  | _ => pkg

section Objects

-- The value of a boolean, of which the object keeps only the type.
variable (toBoolean : Ucl → Bool)

def setFilesFromObject (pkg : ManifestTexts) (okey : String) (fields : List (String × Ucl)) :
    Option ManifestTexts :=
  let sum := (Ucl.heads fields).foldl (fun sum field =>
    match field.2 with
    | .string text =>
        if strcaseeq field.1.toList "sum".toList && decide (text.length = 64) then text else sum
    | _ => sum) []
  (sbufData (urldecode okey.toList)).bind fun fname => addFile pkg fname sum

def setDirsFromObject (pkg : ManifestTexts) (okey : String) (fields : List (String × Ucl)) :
    Option ManifestTexts :=
  let try_ := (Ucl.heads fields).foldl (fun try_ field =>
    match field.2 with
    | .other .boolean =>
        if strcaseeq field.1.toList "try".toList then toBoolean field.2 else try_
    | _ => try_) false
  (sbufData (urldecode okey.toList)).bind fun dirname => addDir pkg dirname try_

/-- One turn of the loop of `pkg_obj`; a malformed value is skipped. -/
def pkgObj (attr : ManifestAttr) (pkg : ManifestTexts) (cur : String × Ucl) :
    Option ManifestTexts :=
  match attr, cur.2 with
  | .directories, .other .boolean =>
      (sbufData (urldecode cur.1.toList)).bind fun path => addDir pkg path (toBoolean cur.2)
  | .directories, .object fields => setDirsFromObject toBoolean pkg cur.1 fields
  | .directories, .string text =>
      (sbufData (urldecode cur.1.toList)).bind fun path =>
        addDir pkg path (text.head? = some 'y')
  | .files, .string text =>
      -- `sbuf_get` finishes the buffer.
      addFile pkg (cstring (urldecode cur.1.toList).1) (if text.length = 64 then text else [])
  | .files, .object fields => setFilesFromObject pkg cur.1 fields
  | .scripts, .string text =>
      match scriptTypeStr cur.1 with
      | none => some pkg
      | some type =>
          (sbufData (urldecode text)).map fun data => addScript pkg data type
  | _, _ => some pkg

/-- The function of `manifest_keys` for a field. -/
def parseField (pkg : ManifestTexts) (field : String × Ucl) : Option ManifestTexts :=
  match manifestKeys.find? fun entry => entry.1 = field.1 && entry.2.2 = field.2.type with
  | none => some pkg
  | some (_, attr, _) =>
      match field.2 with
      | .string str => some (pkgString pkg str attr)
      | .object fields => (Ucl.heads fields).foldlM (pkgObj toBoolean attr) pkg
      | _ => some pkg

def parseManifest (pkg : ManifestTexts) (obj : Ucl) : Option ManifestTexts :=
  match obj with
  | .object fields => (Ucl.heads fields).foldlM (parseField toBoolean) pkg
  | _ => some pkg

/-- Emitting a package and parsing the object into a new one. -/
def reparse (flags : EmitFlags) (pkg : ManifestTexts) : Option ManifestTexts :=
  parseManifest toBoolean {} (emitObject flags pkg)

/-- Emitting and parsing any number of times. -/
def reparseAll (rounds : List EmitFlags) (pkg : ManifestTexts) : Option ManifestTexts :=
  rounds.foldlM (fun pkg flags => reparse toBoolean flags pkg) pkg

end Objects

end Pkgng
