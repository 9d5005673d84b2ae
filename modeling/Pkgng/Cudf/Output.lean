import Pkgng.Jobs.Basic
import Pkgng.Lib.CStrings

/-!
# Reading the answer of a CUDF solver

`pkg_jobs_cudf_parse_output` collects the lines of a stanza in an entry and hands the
entry to `pkg_jobs_cudf_add_package` when the next stanza or the end of the file closes
it.  Two pointers are read without a test: the value of a keyword line, and the version of
an entry.
-/

set_option autoImplicit false

namespace Pkgng

open Lib

/-- What `getline` yields, up to the first NUL: the line with its newline, if it has one. -/
abbrev CudfLine := List Char

def isBlank (c : Char) : Bool := c = ' ' || c = '\t'

/-- The last value of the loop `while (begin != NULL) value = strsep(&begin, " \t")`: each
round takes the text up to the next blank, the last one what no blank follows. -/
def lastToken : List Char → List Char
  | [] => []
  | c :: rest => if isBlank c || rest.any isBlank then lastToken rest else c :: rest

def lineParam (line : CudfLine) : Option (List Char) := (strsep [':', ' ', '\t'] (some line)).1

/-- `value` after the loop; null where `param` is the whole line. -/
def lineValue (line : CudfLine) : Option (List Char) :=
  (strsep [':', ' ', '\t'] (some line)).2.map lastToken

def cudfStrdup (s : List Char) : List Char :=
  (s.filter fun c => !isspace c).map fun c => if c = '@' then '_' else c

structure CudfEntry where
  uid : Option (List Char) := none
  wasInstalled : Bool := false
  installed : Bool := false
  version : Option (List Char) := none
deriving DecidableEq, Repr

/-- The jobs, and what `pkg_set` has stored under `PKG_OLD_VERSION`. -/
structure CudfJobs extends Jobs where
  oldVersions : List (Addr × String) := []

/-- A call that has ended: on a null pointer or a failed assertion, or with a return code. -/
inductive CudfResult
  | fault
  | returned (code : Epkg) (j : CudfJobs)

namespace CudfJobs

def fail (j : CudfJobs) (message : String) : CudfResult :=
  .returned .fatal { j with toJobs := j.toJobs.emitError message }

/-- `pkg_jobs_cudf_insert_res_job` and `j->count ++`. -/
def scheduled (j : CudfJobs) (job : Solved) : CudfResult :=
  .returned .ok { j with toJobs := j.toJobs.schedule job }

/-- The loop that looks for the version: where its counter ends, and the item selected. -/
def selectVersion (ver : Int) : Nat → List Addr → Nat × Option Addr
  | n, [] => (n, none)
  | n, cur :: rest => if (n : Int) = ver then (n, some cur) else selectVersion ver (n + 1) rest

/-- The job for the item selected as version `n` of its chain. -/
def addSelected (j : CudfJobs) (entry : CudfEntry) (chain : List Addr) (n : Nat)
    (selected : Addr) : CudfResult :=
  if n = 1 then
    if entry.installed ∧ (j.pkg selected).type ≠ .installed then
      j.scheduled { items0 := selected, type := .install }
    else if ¬entry.installed ∧ (j.pkg selected).type = .installed then
      j.scheduled { items0 := selected, type := .delete }
    else .returned .ok j
  else
    match chain.find? (· ≠ selected) with
    | none => .fault
    | some old =>
        { j with oldVersions := (selected, (j.pkg old).version) :: j.oldVersions }.scheduled
          { items0 := selected, items1 := some old, type := .upgrade }

/-- `pkg_jobs_cudf_add_package`. -/
def addPackage (j : CudfJobs) (entry : CudfEntry) : CudfResult :=
  match entry.uid with
  | none => .fault
  | some uid =>
      match j.univ.find (String.ofList uid) with
      | none =>
          j.fail ("package " ++ String.ofList uid ++
            " is found in CUDF output but not in the universe")
      | some it =>
          -- The version goes to `strtoul` as it is.
          match entry.version with
          | none => .fault
          | some version =>
              match j.univ.links.rewind (j.univ.pkgs.length + 1) it with
              | none => .fault
              | some head =>
                  match selectVersion (toCInt (strtoul version)) 1 (j.univ.chain head) with
                  | (n, some selected) => j.addSelected entry (j.univ.chain head) n selected
                  | (n, none) =>
                      j.fail ("package " ++ String.ofList uid ++ "-" ++
                        toString (toCInt (strtoul version)) ++
                        " is found in CUDF output but the universe has no such version (only " ++
                        toString n ++ " versions found)")

end CudfJobs

/-- The local variables of `pkg_jobs_cudf_parse_output` that outlive a line. -/
structure CudfReader where
  j : CudfJobs
  curPkg : CudfEntry := {}

namespace CudfReader

/-- The end of a stanza, at the next `package` line and at the end of the file. -/
def closeStanza (r : CudfReader) : Except CudfResult CudfReader :=
  match r.curPkg.uid with
  | none => .ok r
  | some _ =>
      match r.j.addPackage r.curPkg with
      | .fault => .error .fault
      | .returned .ok j => .ok { r with j := j }
      | .returned _ j => .error (.returned .fatal j)

/-- A keyword line within a stanza: its value is read, whether there is one or not. -/
def field (r : CudfReader) (line : CudfLine) (change : List Char → CudfEntry → CudfEntry) :
    Except CudfResult CudfReader :=
  match r.curPkg.uid with
  | none =>
      .error (r.j.fail (String.ofList ((lineParam line).getD []) ++
        " line has no corresponding uid in CUDF output"))
  | some _ =>
      match lineValue line with
      | none => .error .fault
      | some value => .ok { r with curPkg := change value r.curPkg }

/-- `strncmp(value, "true", 4) == 0`. -/
def isTrue (value : List Char) : Bool := "true".toList.isPrefixOf value

/-- The body of the loop over the lines. -/
def readLine (r : CudfReader) (line : CudfLine) : Except CudfResult CudfReader :=
  if lineParam line = some "package".toList then
    match r.closeStanza with
    | .error result => .error result
    | .ok r =>
        match lineValue line with
        | none => .error .fault
        | some value => .ok { r with curPkg := { uid := some (cudfStrdup value) } }
  else if lineParam line = some "version".toList then
    r.field line fun value cur => { cur with version := some (cudfStrdup value) }
  else if lineParam line = some "installed".toList then
    r.field line fun value cur => { cur with installed := cur.installed || isTrue value }
  else if lineParam line = some "was-installed".toList then
    r.field line fun value cur => { cur with wasInstalled := cur.wasInstalled || isTrue value }
  else .ok r

def readLines (r : CudfReader) : List CudfLine → Except CudfResult CudfReader
  | [] => .ok r
  | line :: rest =>
      match r.readLine line with
      | .error result => .error result
      | .ok r => r.readLines rest

end CudfReader

def pkgJobsCudfParseOutput (j : CudfJobs) (file : List Char) : CudfResult :=
  match CudfReader.readLines { j := j } ((getlines file).map uptoNul) with
  | .error result => result
  | .ok r =>
      match r.closeStanza with
      | .error result => result
      | .ok r => .returned .ok r.j

end Pkgng
