import Pkgng.Lib.Substrings
import Pkgng.PkgObject.Calls
import Pkgng.Util.ExecCmd

/-!
# Actions of a packing list

The functions that `keyacts` and `list_actions` name, on a line in its buffer.  They write into the
line and look backwards from its end; what they do with the attributes of a keyword is noted.
-/

set_option autoImplicit false

namespace Pkgng

open Lib

/-- Where the program leaves its memory, or ends. -/
inductive PlistFault
  /-- A byte in front of the buffer of the line. -/
  | beforeLine
  /-- The byte in front of an empty prefix. -/
  | beforePrefix
  /-- The result of a search for a hyphen that has found none. -/
  | failedSearch
  | nullPointer
  | assertion
  /-- A path of a command that is longer than the buffer it is copied to. -/
  | pastPath
  /-- `format_exec_cmd` itself. -/
  | execCmd (fault : ExecFault)
  /-- The output of `format_exec_cmd` where it has not set it. -/
  | unsetCmd
deriving DecidableEq

inductive PlistCode
  | ok
  | fatal
  | unknown
deriving DecidableEq, Repr

def PlistCode.ofEpkg : Epkg → PlistCode
  | .ok => .ok
  | _ => .fatal

/-- `struct file_attr`; the mode is zero where there is none. -/
structure FileAttr where
  owner : Option (List Char) := none
  group : Option (List Char) := none
  mode : Nat := 0
deriving DecidableEq, Repr

/-- What is done with a record of attributes. -/
inductive AttrEvent
  | use
  | free
deriving DecidableEq, Repr

inductive PathKind
  | regular
  | link
  | directory
  | other
deriving DecidableEq, Repr

/-- `struct stat`. -/
structure PathStat where
  kind : PathKind
  nlink : Nat
  ino : Nat
  size : Int
deriving DecidableEq, Repr

/-- The scripts of a keyword, and the buffers of a packing list. -/
inductive ScriptSection
  | preInstall
  | postInstall
  | preDeinstall
  | postDeinstall
  | preUpgrade
  | postUpgrade
deriving DecidableEq, Repr

/-- A definition of a keyword that the schema accepts; the attributes are in the order in which
`ucl_iterate_object` visits them. -/
structure KeywordDef where
  attributes : Option (List (String × Ucl)) := none
  scripts : ScriptSection → Option (List Char) := fun _ => none
  actions : Option (List (List Char)) := none

inductive KeywordFile
  | unparsed
  | invalid
  | definition (d : KeywordDef)

/-- What the functions ask the system. -/
structure PortsEnv where
  /-- `DEVELOPER_MODE` -/
  developer : Bool
  /-- `FORCE_POST` -/
  forcePost : Option (List Char)
  lstat : List Char → Option PathStat
  /-- `pkg_symlink_cksum`; none is `EPKG_FATAL`. -/
  symlinkCksum : (path : List Char) → (root : Option (List Char)) → Option String
  md5File : List Char → String
  sha256File : List Char → String
  /-- `setmode`, with `getmode` for what it returns. -/
  setmode : List Char → Option (Nat → Nat)
  keywordFile : List Char → KeywordFile
  /-- The buckets of the table of options. -/
  bucket : List Char → Nat

/-- A system without files, and a `setmode` that accepts the octal digits. -/
def bareSystem : PortsEnv where
  developer := false
  forcePost := none
  lstat := fun _ => none
  symlinkCksum := fun _ _ => none
  md5File := fun _ => ""
  sha256File := fun _ => ""
  setmode := fun text =>
    if text.all fun c => '0' ≤ c && c ≤ '7' then
      some fun _ => text.foldl (fun n c => 8 * n + digitValue c) 0
    else none
  keywordFile := fun _ => .unparsed
  bucket := fun _ => 0

/-- `struct plist`; the keywords and the patterns of `FORCE_POST` never change. -/
structure Plist where
  lastFile : List Char := []
  stage : Option (List Char)
  dirPrefix : List Char := []
  buf : ScriptSection → List Char := fun _ => []
  pkg : PkgObject
  uname : Option (List Char) := none
  gname : Option (List Char) := none
  slash : List Char := []
  pkgdep : Option (List Char) := none
  ignoreNext : Bool := false
  flatsize : Int := 0
  hardlinks : List Nat := []
  perm : Nat := 0

/-- `sbuf_printf` to one of the buffers. -/
def Plist.append (p : Plist) (s : ScriptSection) (text : List Char) : Plist :=
  { p with buf := Function.update p.buf s (p.buf s ++ text) }

/-- The buffer of a line, from the pointer that a function is given: the bytes in front of it, the
nearest first, and the string. -/
structure LineMem where
  before : List Char
  text : List Char
deriving DecidableEq, Repr

/-- The packing list, the line, and what has been done with the record of its keyword. -/
structure Work where
  plist : Plist
  line : LineMem
  events : List AttrEvent := []

inductive Performed
  | returned (code : PlistCode) (w : Work)
  | fault (fault : PlistFault) (w : Work)

/-- The state in which an action returns or ends. -/
def Performed.work : Performed → Work
  | .returned _ w => w
  | .fault _ w => w

/-- `pkg_get` of a text. -/
def PkgObject.text (pkg : PkgObject) (attr : PkgAttr) : Option (List Char) :=
  match pkg.fields attr with
  | some (.string text) => some text.toList
  | _ => none

/-- `pkg_set` of a text. -/
def PkgObject.setText (pkg : PkgObject) (attr : PkgAttr) (text : List Char) : PkgObject :=
  pkg.setField attr (some (.string (String.ofList text)))

/-- `free_file_attr`, and `free` of a record. -/
def Work.freeAttr (w : Work) : Option FileAttr → Work
  | none => w
  | some _ => { w with events := w.events ++ [.free] }

def Work.useAttr (w : Work) : Option FileAttr → Work
  | none => w
  | some _ => { w with events := w.events ++ [.use] }

/-! ## Trimming -/

/-- The loop that writes zeros over white space, from a byte downwards; none when it comes to the
byte in front of the buffer. -/
def blankBelow : List Char → Option (List Char)
  | [] => none
  | c :: below =>
      if isspace c then (blankBelow below).map fun bytes => '\x00' :: bytes
      else some (c :: below)

/-- `while (isspace(line[len - 1])) line[--len] = '\0'` -/
def trimLine (line : LineMem) : Option LineMem :=
  (blankBelow (line.text.reverse ++ line.before)).map fun bytes =>
    { before := bytes.drop line.text.length
      text := uptoNul (bytes.take line.text.length).reverse }

/-! ## The actions -/

section Actions

variable (env : PortsEnv)

/-- `snprintf` of a line's path. -/
def Plist.pathOf (p : Plist) (line : List Char) : List Char :=
  if line.head? = some '/' then line else p.dirPrefix ++ p.slash ++ line

def Plist.testpath (p : Plist) (path : List Char) : List Char :=
  match p.stage with
  | none => path
  | some stage => (stage ++ path).take (maxPathLen - 1)

/-- What is returned for a path that does not exist. -/
def missingCode (p : Plist) : PlistCode :=
  if p.stage.isSome || env.developer then .fatal else .ok

def ownerFor (p : Plist) (a : Option FileAttr) : Option String :=
  ((a.bind FileAttr.owner).or p.uname).map String.ofList

def groupFor (p : Plist) (a : Option FileAttr) : Option String :=
  ((a.bind FileAttr.group).or p.gname).map String.ofList

def modeFor (p : Plist) (a : Option FileAttr) : Nat :=
  match a with
  | some attr => if attr.mode ≠ 0 then attr.mode else p.perm
  | none => p.perm

/-- What a `pkg_add` function leaves for `free_file_attr` and the return; none is a failed
assertion. -/
def Work.added (w : Work) (a : Option FileAttr) : Option (Epkg × PkgObject) → Performed
  | none => .fault .assertion w
  | some (code, pkg) =>
      .returned (.ofEpkg code) ({ w with plist := { w.plist with pkg := pkg } }.freeAttr a)

/-- The prefix that is copied. -/
def Work.newPrefix (w : Work) : Option (List Char) :=
  if w.line.text = [] then w.plist.pkg.text .installPath else some w.line.text

/-- `p->prefix`, and that of the package where it has none. -/
def Plist.withPrefix (p : Plist) (newPrefix line : List Char) : Plist :=
  { p with
    dirPrefix := newPrefix.take (maxPathLen - 1)
    pkg :=
      if (p.pkg.text .installPath).getD [] = [] then p.pkg.setText .installPath line else p.pkg }

def setPrefix (w : Work) (a : Option FileAttr) : Performed :=
  match w.newPrefix with
  | none => .fault .nullPointer w
  | some newPrefix =>
      let p := w.plist.withPrefix newPrefix w.line.text
      match p.dirPrefix.getLast? with
      | none => .fault .beforePrefix { w with plist := p }
      | some last =>
          let cd := "cd ".toList ++ p.dirPrefix ++ ['\n']
          let p := { p with slash := if last = '/' then [] else ['/'] }
          let p := ((p.append .postInstall cd).append .preDeinstall cd).append .postDeinstall cd
          .returned .ok ({ w with plist := p }.freeAttr a)

def nameKey (w : Work) (a : Option FileAttr) : Performed :=
  if (w.plist.pkg.text .name).getD [] ≠ [] then .returned .ok (w.freeAttr a)
  else
    let line := w.line.text
    match strrchr '-' line with
    | none => .fault .failedSearch w
    | some tmp =>
        let name := line.take (line.length - tmp.length)
        let pkg := (w.plist.pkg.setText .name name).setText .version tmp.tail
        .returned .ok ({ w with
          plist := { w.plist with pkg := pkg }
          line := { w.line with text := name } }.freeAttr a)

def pkgdep (w : Work) (a : Option FileAttr) : Performed :=
  if w.line.text ≠ [] then
    .returned .ok ({ w with plist := { w.plist with pkgdep := some w.line.text } }.freeAttr a)
  else .returned .ok (w.freeAttr a)

def metaDirrm (try_ : Bool) (w : Work) (a : Option FileAttr) : Performed :=
  match trimLine w.line with
  | none => .fault .beforeLine w
  | some line =>
      let w := { w with line := line }
      let p := w.plist
      let path := (p.pathOf line.text ++ ['/']).take (maxPathLen - 1)
      match env.lstat (p.testpath path) with
      | none => .returned (missingCode env p) (w.freeAttr a)
      | some _ =>
          (w.useAttr a).added a (p.pkg.adddir env.developer (String.ofList path) (ownerFor p a)
            (groupFor p a) (modeFor p a) try_ true)

/-- `check_for_hardlink`: whether the number has been met. -/
def Plist.checkForHardlink (p : Plist) (ino : Nat) : Bool × Plist :=
  if p.hardlinks.contains ino then (true, p)
  else (false, { p with hardlinks := p.hardlinks ++ [ino] })

/-- The entry of a file that is there. -/
def addEntryFor (path : List Char) (kind : PathKind) (sum : Option String) (w : Work)
    (a : Option FileAttr) : Performed :=
  let p := w.plist
  let w := w.useAttr a
  if kind = .directory then
    w.added a (p.pkg.adddir env.developer (String.ofList path) (ownerFor p a) (groupFor p a)
      (modeFor p a) true true)
  else
    w.added a (p.pkg.addfile env.developer (String.ofList path) sum (ownerFor p a) (groupFor p a)
      (modeFor p a) true)

/-- A regular file, which counts once however many names it has. -/
def addRegular (path testpath : List Char) (st : PathStat) (w : Work) (a : Option FileAttr) :
    Performed :=
  let (seen, p) :=
    if 1 < st.nlink then w.plist.checkForHardlink st.ino else (false, w.plist)
  if seen then addEntryFor env path .regular none { w with plist := p } a
  else
    let sum := if p.pkg.type = .oldFile then env.md5File testpath else env.sha256File testpath
    addEntryFor env path .regular (some sum)
      { w with plist := { p with flatsize := p.flatsize + st.size } } a

def file (w : Work) (a : Option FileAttr) : Performed :=
  match trimLine w.line with
  | none => .fault .beforeLine w
  | some line =>
      let w := { w with line := line }
      let p := w.plist
      let path := (p.pathOf line.text).take (maxPathLen - 1)
      let testpath := p.testpath path
      match env.lstat testpath with
      | none => .returned (missingCode env p) (w.freeAttr a)
      | some st =>
          match st.kind with
          | .regular => addRegular env path testpath st w a
          | .link =>
              match env.symlinkCksum testpath p.stage with
              -- Returns without having freed the record.
              | none => .returned .fatal w
              | some sum => addEntryFor env path .link (some sum) w a
          | kind => addEntryFor env path kind none w a

def setmod (w : Work) (a : Option FileAttr) : Performed :=
  let w := { w with plist := { w.plist with perm := 0 } }
  if w.line.text = [] then .returned .ok w
  else
    match env.setmode w.line.text with
    | none => .returned .ok (w.freeAttr a)
    | some set => .returned .ok ({ w with plist := { w.plist with perm := set 0 } }.freeAttr a)

def setowner (w : Work) (a : Option FileAttr) : Performed :=
  let uname := if w.line.text = [] then none else some w.line.text
  .returned .ok ({ w with plist := { w.plist with uname := uname } }.freeAttr a)

def setgroup (w : Work) (a : Option FileAttr) : Performed :=
  let gname := if w.line.text = [] then none else some w.line.text
  .returned .ok ({ w with plist := { w.plist with gname := gname } }.freeAttr a)

/-- The loop over the options of a comment. -/
def addOptions : List (List Char) → PkgObject → Option PkgObject
  | [], pkg => some pkg
  | option :: rest, pkg =>
      let value := if option.head? = some '+' then "on" else "off"
      if (option.head? = some '+' ∨ option.head? = some '-') ∧
          option.tail.head?.any Char.isUpper then
        match pkg.addoption env.bucket env.developer ⟨.value, option.tail, value.toList⟩ with
        | none => none
        | some (_, pkg) => addOptions rest pkg
      else addOptions rest pkg

def commentKey (w : Work) (a : Option FileAttr) : Performed :=
  let p := w.plist
  let line := w.line.text
  if "DEPORIGIN:".toList.isPrefixOf line then
    match p.pkgdep with
    | none => .returned .ok (w.freeAttr a)
    | some name =>
        match strrchr '-' name with
        | none => .fault .failedSearch w
        | some version =>
            match p.pkg.adddep env.developer
                (String.ofList (name.take (name.length - version.length)))
                (String.ofList (line.drop 10)) (String.ofList version.tail) false with
            | none => .fault .assertion w
            | some (_, pkg) =>
                .returned .ok ({ w with plist := { p with pkg := pkg, pkgdep := none } }.freeAttr a)
  else if "ORIGIN:".toList.isPrefixOf line then
    .returned .ok
      ({ w with plist := { p with pkg := p.pkg.setText .origin (line.drop 7) } }.freeAttr a)
  else if "OPTIONS:".toList.isPrefixOf line ∧ line.drop 8 ≠ [] then
    match addOptions env ((line.drop 8).splitOn ' ') p.pkg with
    | none => .fault .assertion w
    | some pkg => .returned .ok ({ w with plist := { p with pkg := pkg } }.freeAttr a)
  else .returned .ok (w.freeAttr a)

def ignoreNext (w : Work) (a : Option FileAttr) : Performed :=
  .returned .ok ({ w with plist := { w.plist with ignoreNext := true } }.freeAttr a)

/-- `parse_post` and `should_be_post`. -/
def shouldBePost (cmd : List Char) : Bool :=
  match env.forcePost with
  | none => false
  | some patterns =>
      ((patterns.splitOnP fun c => c = ' ' || c = '\t').filter (· ≠ [])).any fun pattern =>
        (strstr pattern cmd).isSome

/-- `isgraph` in the C locale. -/
def isgraph (c : Char) : Bool := 0x21 ≤ c.toNat ∧ c.toNat ≤ 0x7e

/-- The first match of a blank, the characters of `lead`, a slash and one or more characters of
the class: what is from the slash on, and what follows. -/
def regexec (lead : List Char) (inside : Char → Bool) : List Char → Option (List Char × List Char)
  | [] => none
  | c :: rest =>
      let name := rest.drop (lead.length + 1)
      if isspace c && (lead ++ ['/']).isPrefixOf rest && name.head?.any inside then
        some ('/' :: name.takeWhile inside, name.dropWhile inside)
      else regexec lead inside rest

/-- The loop over the matches; each takes a character. -/
def matchedPaths (lead : List Char) (inside : Char → Bool) : Nat → List Char → List (List Char)
  | 0, _ => []
  | n + 1, buf =>
      match regexec lead inside buf with
      | none => []
      | some (path, rest) => path :: matchedPaths lead inside n rest

/-- The paths behind the command, up to a bar. -/
def rmdirPaths (cmd : List Char) : List (List Char) :=
  let buf := (cmd.dropWhile fun c => !isspace c).takeWhile (· ≠ '|')
  if (strstr ['"', '/'] buf).isSome then matchedPaths ['"'] (· ≠ '"') buf.length buf
  else matchedPaths [] isgraph buf.length buf

/-- The calls of `dirrmtry` for the paths; only the first is given the attributes.  With what is
left of them. -/
def dirrmPaths : List (List Char) → Work → Option FileAttr → Performed × Option FileAttr
  | [], w, a => (.returned .ok w, a)
  | path :: rest, w, a =>
      if maxPathLen ≤ path.length then (.fault .pastPath w, a)
      else if path = "/dev/null".toList then dirrmPaths rest w a
      else
        match metaDirrm env true { w with line := ⟨[], path⟩ } a with
        | .fault fault w' => (.fault fault w', none)
        | .returned _ w' => dirrmPaths rest { w' with line := w.line } none

/-- Whether the command is taken for a `@dirrmtry`. -/
def isDirrmtry (cmd : List Char) : Bool :=
  let argument := (cmd.dropWhile fun c => !isspace c).dropWhile isspace
  ("rmdir ".toList.isPrefixOf cmd || "/bin/rmdir ".toList.isPrefixOf cmd) &&
    !cmd.contains '*' && argument.head? ≠ some '-'

def metaExec (unexec : Bool) (w : Work) (a : Option FileAttr) : Performed :=
  let p := w.plist
  match formatExecCmd ⟨p.dirPrefix, some p.lastFile, none⟩ w.line.text with
  | .error fault => .fault (.execCmd fault) w
  | .ok .nullPointer => .fault .nullPointer w
  | .ok .fatal => .returned .ok w
  | .ok (.done cmd) =>
      if !unexec then
        .returned .ok ({ w with plist := p.append .postInstall (cmd ++ ['\n']) }.freeAttr a)
      else if !isDirrmtry cmd then
        let s := if shouldBePost env cmd then ScriptSection.postDeinstall else .preDeinstall
        .returned .ok ({ w with plist := p.append s (cmd ++ ['\n']) }.freeAttr a)
      else
        let p :=
          if shouldBePost env cmd then p
          else p.append .preDeinstall ('#' :: cmd ++ ['\n'])
        match dirrmPaths env (rmdirPaths cmd) { w with plist := p } a with
        | (.fault fault w, _) => .fault fault w
        | (.returned _ w, a) => .returned .ok (w.freeAttr a)

inductive PlistAction
  | setPrefix
  | dirrm
  | dirrmtry
  | file
  | setmod
  | setowner
  | setgroup
  | commentKey
  | ignoreNext
  | exec
  | unexec
  | nameKey
  | pkgdep
deriving DecidableEq, Repr

def PlistAction.perform : PlistAction → Work → Option FileAttr → Performed
  | .setPrefix => Pkgng.setPrefix
  | .dirrm => metaDirrm env false
  | .dirrmtry => metaDirrm env true
  | .file => Pkgng.file env
  | .setmod => Pkgng.setmod env
  | .setowner => Pkgng.setowner
  | .setgroup => Pkgng.setgroup
  | .commentKey => Pkgng.commentKey env
  | .ignoreNext => Pkgng.ignoreNext
  | .exec => metaExec env false
  | .unexec => metaExec env true
  | .nameKey => Pkgng.nameKey
  | .pkgdep => Pkgng.pkgdep

end Actions

end Pkgng
