import Pkgng.Ports.Plist

/-!
# Keywords of a packing list

`parse_keywords` takes the attributes off a keyword and finds its actions, in the table or in a
file; `ports_parse_plist` goes through the lines.
-/

set_option autoImplicit false

namespace Pkgng

open Lib

def listActions : List (String × PlistAction) :=
  [("setprefix", .setPrefix), ("dirrm", .dirrm), ("dirrmtry", .dirrmtry), ("file", .file),
    ("setmode", .setmod), ("setowner", .setowner), ("setgroup", .setgroup),
    ("comment", .commentKey), ("ignore_next", .ignoreNext), ("name", .nameKey),
    ("pkgdep", .pkgdep)]

/-- `keyacts`; `populate_keywords` makes each entry a keyword of one action. -/
def keyacts : List (String × PlistAction) :=
  [("cwd", .setPrefix), ("ignore", .ignoreNext), ("comment", .commentKey), ("dirrm", .dirrm),
    ("dirrmtry", .dirrmtry), ("mode", .setmod), ("owner", .setowner), ("group", .setgroup),
    ("exec", .exec), ("unexec", .unexec), ("name", .nameKey), ("pkgdep", .pkgdep),
    ("mtree", .commentKey), ("stopdaemon", .commentKey), ("display", .commentKey),
    ("conflicts", .commentKey)]

section Keywords

variable (env : PortsEnv)

/-! ## Definitions in files -/

/-- What `parse_actions` finds for the names of a definition. -/
def namedActions (names : List (List Char)) : List PlistAction :=
  names.filterMap fun name =>
    (listActions.find? fun entry => strcaseeq name entry.1.toList).map Prod.snd

/-- `parse_actions`; what an action returns is not looked at. -/
def parseActions : List PlistAction → Work → Option FileAttr → Performed
  | [], w, _ => .returned .ok w
  | act :: rest, w, a =>
      match act.perform env w a with
      | .fault fault w => .fault fault w
      | .returned _ w => parseActions rest w a

/-- One turn of the loop of `parse_attributes`; what is no string is ignored. -/
def readAttribute (a : FileAttr) (field : String × Ucl) : FileAttr :=
  match field.2 with
  | .string text =>
      if strcaseeq field.1.toList "owner".toList then { a with owner := some text }
      else if strcaseeq field.1.toList "group".toList then { a with group := some text }
      else if strcaseeq field.1.toList "mode".toList then
        match env.setmode text with
        | none => a
        | some set => { a with mode := set 0 }
      else a
  | _ => a

def parseAttributes (fields : List (String × Ucl)) (a : Option FileAttr) : FileAttr :=
  fields.foldl (readAttribute env) (a.getD {})

/-- One of the blocks for the scripts.  What `format_exec_cmd` returns is not looked at. -/
def scriptBlock (template line : List Char) (target : ScriptSection) (w : Work) : Performed :=
  match formatExecCmd ⟨w.plist.dirPrefix, some w.plist.lastFile, some line⟩ template with
  | .error fault => .fault (.execCmd fault) w
  | .ok .nullPointer => .fault .nullPointer w
  | .ok .fatal => .fault .unsetCmd w
  | .ok (.done cmd) => .returned .ok { w with plist := w.plist.append target (cmd ++ ['\n']) }

/-- The blocks: the section that is looked for, and the buffer that is written to. -/
def scriptBlocks : List (ScriptSection × ScriptSection) :=
  [(.preInstall, .preInstall), (.postInstall, .postInstall), (.preDeinstall, .preDeinstall),
    (.postDeinstall, .postDeinstall), (.preUpgrade, .preDeinstall),
    (.postUpgrade, .postDeinstall)]

def runScriptBlocks (scripts : ScriptSection → Option (List Char)) (line : List Char) :
    List (ScriptSection × ScriptSection) → Work → Performed
  | [], w => .returned .ok w
  | (s, target) :: rest, w =>
      match scripts s with
      | none => runScriptBlocks scripts line rest w
      | some template =>
          match scriptBlock template line target w with
          | .fault fault w => .fault fault w
          | .returned _ w => runScriptBlocks scripts line rest w

/-- The record that the actions of a definition are given. -/
def attributesOf (d : KeywordDef) (a : Option FileAttr) : Option FileAttr :=
  match d.attributes with
  | none => a
  | some fields => some (parseAttributes env fields a)

def applyKeywordFile (d : KeywordDef) (w : Work) (a : Option FileAttr) : Performed :=
  match runScriptBlocks d.scripts w.line.text scriptBlocks w with
  | .fault fault w => .fault fault w
  | .returned _ w =>
      match d.actions with
      | none => .returned .ok w
      | some names => parseActions env (namedActions names) w (attributesOf env d a)

def externalKeyword (keyword : List Char) (w : Work) (a : Option FileAttr) : Performed :=
  match env.keywordFile keyword with
  | .unparsed => .returned .unknown w
  | .invalid => .returned .fatal w
  | .definition d => applyKeywordFile env d w a

/-! ## Attributes in brackets -/

/-- `strchr`, and a zero written there: what stands before the character, and what behind it. -/
def cutAt (c : Char) (s : List Char) : Option (List Char × List Char) :=
  match s.dropWhile (· ≠ c) with
  | [] => none
  | _ :: rest => some (s.takeWhile (· ≠ c), rest)

def malformedKeyword (keyword : List Char) : List Char :=
  "Malformed keyword ".toList ++ keyword ++
    ", expecting @keyword or @keyword(owner,group,mode)".toList

def wrongMode (keyword : List Char) : List Char :=
  "Malformed keyword ".toList ++ keyword ++ ", wrong mode section".toList

/-- The first half of `parse_keywords`: the key and the attributes, or the message of the
error.  The bracket at the end is removed twice. -/
def keywordAttributes (keyword : List Char) :
    Except (List Char) (List Char × Option FileAttr) :=
  match cutAt '(' keyword with
  | none => .ok (keyword, none)
  | some (key, tmp) =>
      if keyword.getLast? ≠ some ')' then .error (malformedKeyword keyword)
      else
        match cutAt ',' tmp.dropLast with
        | none => .error (malformedKeyword key)
        | some (owner, tmp) =>
            match cutAt ',' tmp with
            | none => .error (malformedKeyword key)
            | some (group, permstr) =>
                let set := if permstr = [] then none else env.setmode permstr
                if permstr ≠ [] ∧ set.isNone then .error (wrongMode key)
                else
                  let permstr := permstr.dropLast
                  .ok (key, some {
                    owner := if owner = [] then none else some owner
                    group := if group = [] then none else some group
                    mode := if permstr = [] then 0 else (set.map fun set => set 0).getD 0 })

/-- The loop over the actions of a keyword in the table. -/
def keywordActions : List PlistAction → PlistCode → Work → Option FileAttr → Performed
  | [], ret, w, _ => .returned ret w
  | act :: rest, _, w, a =>
      match act.perform env w a with
      | .fault fault w => .fault fault w
      | .returned .ok w => keywordActions rest .ok w a
      | .returned code w => .returned code w

/-- The second half of `parse_keywords`. -/
def dispatchKeyword (key : List Char) (w : Work) (a : Option FileAttr) : Performed :=
  if key = [] then file env w a
  else
    match keyacts.find? fun entry => entry.1.toList = key with
    | some entry => keywordActions env [entry.2] .fatal w a
    | none => externalKeyword env key w a

def parseKeywords (keyword : List Char) (w : Work) : Performed :=
  match keywordAttributes env keyword with
  | .error _ => .returned .fatal w
  | .ok (key, a) => dispatchKeyword env key w a

/-! ## Lines -/

/-- A line without a keyword: `buf` behind the white space at its start. -/
def fileLine (line : List Char) : LineMem :=
  ⟨(line.takeWhile isspace).reverse, line.dropWhile isspace⟩

/-- The keyword behind the `@`, and the rest of the line behind it and white space. -/
def keywordLine (line : List Char) : List Char × LineMem :=
  let keyword := line.takeWhile fun c => !isspace c
  match line.dropWhile fun c => !isspace c with
  | [] => (keyword, ⟨keyword.reverse ++ ['@'], []⟩)
  | _ :: rest =>
      (keyword, ⟨(rest.takeWhile isspace).reverse ++ '\x00' :: (keyword.reverse ++ ['@']),
        rest.dropWhile isspace⟩)

/-- The line without its newline, up to the first zero. -/
def lineText (line : List Char) : List Char :=
  uptoNul (if line.getLast? = some '\n' then line.dropLast else line)

/-- A line that is neither ignored nor empty. -/
def performLine (p : Plist) (text : List Char) : Performed :=
  if text.head? = some '@' then
    let (keyword, mem) := keywordLine text.tail
    parseKeywords env keyword ⟨p, mem, []⟩
  else file env ⟨{ p with lastFile := text.take (maxPathLen - 1) }, fileLine text, []⟩ none

/-- One turn of the loop over the lines. -/
def parseLine (p : Plist) (line : List Char) : Except PlistFault (Plist × PlistCode) :=
  if p.ignoreNext then .ok ({ p with ignoreNext := false }, .ok)
  else if lineText line = [] then .ok (p, .ok)
  else
    match performLine env p (lineText line) with
    | .fault fault _ => .error fault
    | .returned code w => .ok (w.plist, code)

/-- The loop with `ret`; an unknown keyword is only reported. -/
def parseLines : List (List Char) → Plist → PlistCode → Except PlistFault (Plist × PlistCode)
  | [], p, ret => .ok (p, ret)
  | line :: rest, p, ret =>
      match parseLine env p line with
      | .error fault => .error fault
      | .ok (p, code) => parseLines rest p (if code = .fatal then .fatal else ret)

/-- The state before the first line. -/
def initialPlist (pkg : PkgObject) (stage : Option (List Char)) : Except PlistFault Plist :=
  match pkg.text .installPath with
  | none => .ok { stage := stage, pkg := pkg }
  | some tmpprefix =>
      let dirPrefix := tmpprefix.take (maxPathLen - 1)
      match dirPrefix.getLast? with
      | none => .error .beforePrefix
      | some last =>
          .ok { stage := stage, pkg := pkg, dirPrefix := dirPrefix
                slash := if last = '/' then [] else ['/'] }

def flushScriptBuffer (buf : List Char) (type : PkgScript) (pkg : PkgObject) : Option PkgObject :=
  if buf = [] then some pkg else (pkg.appendscript (String.ofList buf) type).map Prod.snd

/-- The script of a package that a buffer is flushed to. -/
def ScriptSection.script : ScriptSection → PkgScript
  | .preInstall => .preInstall
  | .postInstall => .postInstall
  | .preDeinstall => .preDeinstall
  | .postDeinstall => .postDeinstall
  | .preUpgrade => .preUpgrade
  | .postUpgrade => .postUpgrade

def allSections : List ScriptSection :=
  [.preInstall, .postInstall, .preDeinstall, .postDeinstall, .preUpgrade, .postUpgrade]

/-- What is done behind the loop; none is a failed assertion. -/
def flushPlist (p : Plist) : Option PkgObject :=
  allSections.foldlM (fun pkg s => flushScriptBuffer (p.buf s) s.script pkg)
    (p.pkg.setField .flatsize (some (.int p.flatsize)))

/-- `ports_parse_plist`; no text is a file that cannot be opened. -/
def portsParsePlist (pkg : PkgObject) (plist : Option (List Char)) (stage : Option (List Char)) :
    Except PlistFault (PkgObject × PlistCode) :=
  match plist with
  | none => .ok (pkg, .fatal)
  | some text =>
      match initialPlist pkg stage with
      | .error fault => .error fault
      | .ok p =>
          match parseLines env (getlines text) p .ok with
          | .error fault => .error fault
          | .ok (p, ret) =>
              match flushPlist p with
              | none => .error .assertion
              | some pkg => .ok (pkg, ret)

end Keywords

end Pkgng
