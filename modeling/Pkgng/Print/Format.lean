import Mathlib.Data.List.Infix
import Mathlib.Tactic.Cases
import Pkgng.Lib.CStrings

/-!
# The escapes of a format string

`parse_format` reads what follows a percent sign: modifiers, a width, a format code and,
for a list at the top level, a trailer with the formats of its items and separators.  A
position in the format is the rest of the string.
-/

set_option autoImplicit false

namespace Pkgng

open Lib

/-- What an escape is interpreted in: the package, or an item of one of its lists. -/
inductive Context
  | pkg
  | annotations
  | shlibRequired
  | category
  | directory
  | file
  | group
  | licence
  | option
  | user
  | shlibProvided
  | dependency
  | requirement
deriving DecidableEq, Repr

/-- `PP_TRAILER`. -/
def Context.trailer : List Context :=
  [.annotations, .shlibRequired, .category, .directory, .file, .group, .licence, .option, .user,
   .shlibProvided, .dependency, .requirement]

/-- `PP_ALL`. -/
def Context.all : List Context := .pkg :: Context.trailer

/-- `fmt_code_t` up to its end marker. -/
inductive FmtCode
  | annotationName
  | annotationValue
  | annotations
  | shlibRequiredName
  | shlibsRequired
  | categoryName
  | categories
  | directoryGroup
  | directoryKeepflag
  | directoryPath
  | directoryPerms
  | directoryTryflag
  | directoryUser
  | directories
  | fileGroup
  | fileKeepflag
  | filePath
  | filePerms
  | fileSha256
  | fileUser
  | files
  | groupGidstr
  | groupName
  | groups
  | rowCounter
  | licenseName
  | licenses
  | message
  | repoIdent
  | optionName
  | optionValue
  | optionDefault
  | optionDescription
  | options
  | repoPath
  | charString
  | userName
  | userUidstr
  | users
  | oldVersion
  | autoremove
  | shlibProvidedName
  | shlibsProvided
  | comment
  | dependencyLock
  | dependencyName
  | dependencyOrigin
  | dependencyVersion
  | dependencies
  | description
  | lockStatus
  | licenseLogic
  | maintainer
  | name
  | origin
  | installPrefix
  | architecture
  | requirementLock
  | requirementName
  | requirementOrigin
  | requirementVersion
  | requirements
  | flatsize
  | installTimestamp
  | checksum
  | version
  | homePage
  | shortChecksum
  | literalPercent
  | unknown
deriving DecidableEq, Repr

/-- What the handlers do: most of them print one field of their data, a list handler runs
through a list with a format for the items and one for the separators. -/
inductive Handler
  | string
  | shortChecksum
  | int
  | bool
  | mode
  | logic
  | timestamp
  | rowCounter
  | list (itemFmt sepFmt : String) (context : Context)
  | literalPercent
  | unknown
deriving DecidableEq, Repr

structure PkgPrintfFmt where
  fmtMain : Char
  fmtSub : Char
  hasTrailer : Bool
  structPkg : Bool
  context : List Context
  handler : Handler

namespace FmtCode

/-- The codes in the order of the enumeration. -/
def all : List FmtCode :=
  [.annotationName, .annotationValue, .annotations, .shlibRequiredName, .shlibsRequired,
   .categoryName, .categories, .directoryGroup, .directoryKeepflag, .directoryPath,
   .directoryPerms, .directoryTryflag, .directoryUser, .directories, .fileGroup, .fileKeepflag,
   .filePath, .filePerms, .fileSha256, .fileUser, .files, .groupGidstr, .groupName, .groups,
   .rowCounter, .licenseName, .licenses, .message, .repoIdent, .optionName, .optionValue,
   .optionDefault, .optionDescription, .options, .repoPath, .charString, .userName, .userUidstr,
   .users, .oldVersion, .autoremove, .shlibProvidedName, .shlibsProvided, .comment,
   .dependencyLock, .dependencyName, .dependencyOrigin, .dependencyVersion, .dependencies,
   .description, .lockStatus, .licenseLogic, .maintainer, .name, .origin, .installPrefix,
   .architecture, .requirementLock, .requirementName, .requirementOrigin, .requirementVersion,
   .requirements, .flatsize, .installTimestamp, .checksum, .version, .homePage, .shortChecksum,
   .literalPercent, .unknown]

/-- The table `fmt`. -/
def fmt : FmtCode → PkgPrintfFmt
  | .annotationName => ⟨'A', 'n', false, false, [.pkg, .annotations], .string⟩
  | .annotationValue => ⟨'A', 'v', false, false, [.pkg, .annotations], .string⟩
  | .annotations => ⟨'A', '\x00', true, true, [.pkg], .list "%An: %Av\n" "" .annotations⟩
  | .shlibRequiredName => ⟨'B', 'n', false, false, [.pkg, .shlibRequired], .string⟩
  | .shlibsRequired => ⟨'B', '\x00', true, true, [.pkg], .list "%Bn\n" "" .shlibRequired⟩
  | .categoryName => ⟨'C', 'n', false, false, [.pkg, .category], .string⟩
  | .categories => ⟨'C', '\x00', true, true, [.pkg], .list "%Cn" ", " .category⟩
  | .directoryGroup => ⟨'D', 'g', false, false, [.pkg, .directory], .string⟩
  | .directoryKeepflag => ⟨'D', 'k', false, false, [.pkg, .directory], .bool⟩
  | .directoryPath => ⟨'D', 'n', false, false, [.pkg, .directory], .string⟩
  | .directoryPerms => ⟨'D', 'p', false, false, [.pkg, .directory], .mode⟩
  | .directoryTryflag => ⟨'D', 't', false, false, [.pkg, .directory], .bool⟩
  | .directoryUser => ⟨'D', 'u', false, false, [.pkg, .directory], .string⟩
  | .directories => ⟨'D', '\x00', true, true, [.pkg], .list "%Dn\n" "" .directory⟩
  | .fileGroup => ⟨'F', 'g', false, false, [.pkg, .file], .string⟩
  | .fileKeepflag => ⟨'F', 'k', false, false, [.pkg, .file], .bool⟩
  | .filePath => ⟨'F', 'n', false, false, [.pkg, .file], .string⟩
  | .filePerms => ⟨'F', 'p', false, false, [.pkg, .file], .mode⟩
  | .fileSha256 => ⟨'F', 's', false, false, [.pkg, .file], .string⟩
  | .fileUser => ⟨'F', 'u', false, false, [.pkg, .file], .string⟩
  | .files => ⟨'F', '\x00', true, true, [.pkg], .list "%Fn\n" "" .file⟩
  | .groupGidstr => ⟨'G', 'g', false, false, [.pkg, .group], .string⟩
  | .groupName => ⟨'G', 'n', false, false, [.pkg, .group], .string⟩
  | .groups => ⟨'G', '\x00', true, true, [.pkg], .list "%Gn\n" "" .group⟩
  | .rowCounter => ⟨'I', '\x00', false, false, Context.trailer, .rowCounter⟩
  | .licenseName => ⟨'L', 'n', false, false, [.pkg, .licence], .string⟩
  | .licenses => ⟨'L', '\x00', true, true, [.pkg], .list "%Ln" " %l " .licence⟩
  | .message => ⟨'M', '\x00', false, true, Context.all, .string⟩
  | .repoIdent => ⟨'N', '\x00', false, true, Context.all, .string⟩
  | .optionName => ⟨'O', 'n', false, false, [.pkg, .option], .string⟩
  | .optionValue => ⟨'O', 'v', false, false, [.pkg, .option], .string⟩
  | .optionDefault => ⟨'O', 'd', false, false, [.pkg, .option], .string⟩
  | .optionDescription => ⟨'O', 'D', false, false, [.pkg, .option], .string⟩
  | .options => ⟨'O', '\x00', true, true, [.pkg], .list "%On %Ov\n" "" .option⟩
  | .repoPath => ⟨'R', '\x00', false, true, Context.all, .string⟩
  | .charString => ⟨'S', '\x00', false, false, [.pkg], .string⟩
  | .userName => ⟨'U', 'n', false, false, [.pkg, .user], .string⟩
  | .userUidstr => ⟨'U', 'u', false, false, [.pkg, .user], .string⟩
  | .users => ⟨'U', '\x00', true, true, [.pkg], .list "%Un\n" "" .user⟩
  | .oldVersion => ⟨'V', '\x00', false, true, Context.all, .string⟩
  | .autoremove => ⟨'a', '\x00', false, true, Context.all, .bool⟩
  | .shlibProvidedName => ⟨'b', 'n', false, false, [.pkg, .shlibProvided], .string⟩
  | .shlibsProvided => ⟨'b', '\x00', true, true, [.pkg], .list "%bn\n" "" .shlibProvided⟩
  | .comment => ⟨'c', '\x00', false, true, Context.all, .string⟩
  | .dependencyLock => ⟨'d', 'k', false, false, [.pkg, .dependency], .bool⟩
  | .dependencyName => ⟨'d', 'n', false, false, [.pkg, .dependency], .string⟩
  | .dependencyOrigin => ⟨'d', 'o', false, false, [.pkg, .dependency], .string⟩
  | .dependencyVersion => ⟨'d', 'v', false, false, [.pkg, .dependency], .string⟩
  | .dependencies => ⟨'d', '\x00', true, true, [.pkg], .list "%dn-%dv\n" "" .dependency⟩
  | .description => ⟨'e', '\x00', false, true, Context.all, .string⟩
  | .lockStatus => ⟨'k', '\x00', false, true, Context.all, .bool⟩
  | .licenseLogic => ⟨'l', '\x00', false, true, Context.all, .logic⟩
  | .maintainer => ⟨'m', '\x00', false, true, Context.all, .string⟩
  | .name => ⟨'n', '\x00', false, true, Context.all, .string⟩
  | .origin => ⟨'o', '\x00', false, true, Context.all, .string⟩
  | .installPrefix => ⟨'p', '\x00', false, true, Context.all, .string⟩
  | .architecture => ⟨'q', '\x00', false, true, Context.all, .string⟩
  | .requirementLock => ⟨'r', 'k', false, false, [.pkg, .requirement], .bool⟩
  | .requirementName => ⟨'r', 'n', false, false, [.pkg, .requirement], .string⟩
  | .requirementOrigin => ⟨'r', 'o', false, false, [.pkg, .requirement], .string⟩
  | .requirementVersion => ⟨'r', 'v', false, false, [.pkg, .requirement], .string⟩
  | .requirements => ⟨'r', '\x00', true, true, [.pkg], .list "%rn-%rv\n" "" .requirement⟩
  | .flatsize => ⟨'s', '\x00', false, true, Context.all, .int⟩
  | .installTimestamp => ⟨'t', '\x00', true, true, Context.all, .timestamp⟩
  | .checksum => ⟨'u', '\x00', false, true, Context.all, .string⟩
  | .version => ⟨'v', '\x00', false, true, Context.all, .string⟩
  | .homePage => ⟨'w', '\x00', false, true, Context.all, .string⟩
  | .shortChecksum => ⟨'z', '\x00', false, true, Context.all, .shortChecksum⟩
  | .literalPercent => ⟨'%', '\x00', false, false, Context.all, .literalPercent⟩
  | .unknown => ⟨'\x00', '\x00', false, false, Context.all, .unknown⟩

end FmtCode

/-! ## Parsing -/

/-- The bits of `flags`. -/
structure Flags where
  alternateForm1 : Bool := false
  alternateForm2 : Bool := false
  leftAlign : Bool := false
  explicitPlus : Bool := false
  spaceForPlus : Bool := false
  zeroPad : Bool := false
  thousandsSep : Bool := false
deriving DecidableEq, Repr

/-- `struct percent_esc`.  The defaults are what `new_percent_esc` and `clear_percent_esc`
leave. -/
structure PercentEsc where
  flags : Flags := {}
  width : Nat := 0
  itemFmtSet : Bool := false
  sepFmtSet : Bool := false
  itemFmt : List Char := []
  sepFmt : List Char := []
  fmtCode : FmtCode := .annotationName

/-- The character at a position; the end of the string is a NUL. -/
def charAt (f : List Char) : Char := f.headD '\x00'

/-- What a field modifier adds to the flags. -/
def modifier (c : Char) (flags : Flags) : Option Flags :=
  match c with
  | '?' => some { flags with alternateForm1 := true }
  | '#' => some { flags with alternateForm2 := true }
  | '-' => some { flags with leftAlign := true }
  | '+' => some { flags with explicitPlus := true }
  | ' ' => some { flags with spaceForPlus := true }
  | '0' => some { flags with zeroPad := true }
  | '\x27' => some { flags with thousandsSep := true }
  | _ => none

def fieldModifier : List Char → PercentEsc → List Char × PercentEsc
  | [], p => ([], p)
  | c :: f, p =>
      match modifier c p.flags with
      | some flags => fieldModifier f { p with flags := flags }
      | none => (c :: f, p)

def fieldWidth : List Char → PercentEsc → List Char × PercentEsc
  | [], p => ([], p)
  | c :: f, p =>
      if c.isDigit then fieldWidth f { p with width := p.width * 10 + digitValue c }
      else (c :: f, p)

/-- A loop of `format_trailer`: the text before the closing `%` with a brace, and what
follows; the first loop also stops at a `%` with a bar, which it notes. -/
def trailerPart (bar : Bool) : List Char → List Char × Option (Bool × List Char)
  | [] => ([], none)
  | c :: f =>
      if c = '%' ∧ charAt f = '\x7d' then ([], some (false, f.tail))
      else if bar = true ∧ c = '%' ∧ charAt f = '|' then ([], some (true, f.tail))
      else (c :: (trailerPart bar f).1, (trailerPart bar f).2)

def formatTrailer (f : List Char) (p : PercentEsc) : List Char × PercentEsc :=
  if charAt f = '%' ∧ charAt f.tail = '\x7b' then
    let p := { p with itemFmtSet := true }
    match trailerPart true (f.drop 2) with
    | (_, none) => (f, { p with itemFmt := [], sepFmt := [] })
    | (item, some (false, f1)) => (f1, { p with itemFmt := p.itemFmt ++ item })
    | (item, some (true, f1)) =>
        let p := { p with sepFmtSet := true }
        match trailerPart false f1 with
        | (_, none) => (f, { p with itemFmt := [], sepFmt := [] })
        | (sep, some (_, f1)) =>
            (f1, { p with itemFmt := p.itemFmt ++ item, sepFmt := p.sepFmt ++ sep })
  else (f, p)

/-- The loop of `format_code`. -/
def findCode (f : List Char) (context : Context) : List FmtCode → List Char × FmtCode
  | [] => (f, .unknown)
  | code :: rest =>
      if context ∉ code.fmt.context then findCode f context rest
      else if code.fmt.fmtMain ≠ charAt f then findCode f context rest
      else if code.fmt.fmtSub = charAt f.tail ∧ charAt f.tail ≠ '\x00' then (f.drop 2, code)
      else if code.fmt.fmtSub = '\x00' then (f.drop 1, code)
      else findCode f context rest

def formatCode (f : List Char) (context : Context) (p : PercentEsc) : List Char × PercentEsc :=
  let (f, code) := findCode f context FmtCode.all
  (f, { p with fmtCode := code })

def parseFormat (f : List Char) (context : Context) (p : PercentEsc) : List Char × PercentEsc :=
  let f := f.tail
  let (f, p) := fieldModifier f p
  let (f, p) := fieldWidth f p
  let (f, p) := formatCode f context p
  if context = .pkg ∧ p.fmtCode.fmt.hasTrailer = true ∧ p.flags.alternateForm1 = false ∧
      p.flags.alternateForm2 = false then formatTrailer f p
  else (f, p)

/-! ## The positions -/

theorem fieldModifier_suffix (f : List Char) (p : PercentEsc) : (fieldModifier f p).1 <:+ f := by
  induction f generalizing p with
  | nil => exact List.suffix_refl _
  | cons c f ih =>
      rw [fieldModifier]
      cases modifier c p.flags with
      | none => exact List.suffix_refl _
      | some flags => exact (ih _).trans (List.suffix_cons c f)

theorem fieldWidth_suffix (f : List Char) (p : PercentEsc) : (fieldWidth f p).1 <:+ f := by
  induction f generalizing p with
  | nil => exact List.suffix_refl _
  | cons c f ih =>
      rw [fieldWidth]
      split
      · exact (ih _).trans (List.suffix_cons c f)
      · exact List.suffix_refl _

theorem trailerPart_suffix {bar : Bool} {f item f1 : List Char} {sep : Bool}
    (found : trailerPart bar f = (item, some (sep, f1))) : f1 <:+ f := by
  induction f generalizing item with
  | nil => cases found
  | cons c f ih =>
      rw [trailerPart] at found
      split at found
      · cases found
        exact (List.tail_suffix f).trans (List.suffix_cons c f)
      · split at found
        · cases found
          exact (List.tail_suffix f).trans (List.suffix_cons c f)
        · obtain ⟨_, later⟩ := Prod.mk.inj found
          exact (ih (Prod.ext rfl later)).trans (List.suffix_cons c f)

theorem formatTrailer_suffix (f : List Char) (p : PercentEsc) : (formatTrailer f p).1 <:+ f := by
  unfold formatTrailer
  split
  · dsimp only
    split
    · exact List.suffix_refl _
    · next found => exact (trailerPart_suffix found).trans (List.drop_suffix 2 f)
    · next found =>
        split
        · exact List.suffix_refl _
        · next foundSep =>
            exact (trailerPart_suffix foundSep).trans
              ((trailerPart_suffix found).trans (List.drop_suffix 2 f))
  · exact List.suffix_refl _

theorem findCode_suffix (f : List Char) (context : Context) (codes : List FmtCode) :
    (findCode f context codes).1 <:+ f := by
  induction codes with
  | nil => exact List.suffix_refl _
  | cons code rest ih =>
      rw [findCode]
      split
      · exact ih
      · split
        · exact ih
        · split
          · exact List.drop_suffix 2 f
          · split
            · exact List.drop_suffix 1 f
            · exact ih

/-- An escape ends behind its percent sign. -/
theorem parseFormat_suffix (f : List Char) (context : Context) (p : PercentEsc) :
    (parseFormat f context p).1 <:+ f.tail := by
  have code : ∀ mid, (findCode (fieldWidth (fieldModifier f.tail p).1 mid).1 context
      FmtCode.all).1 <:+ f.tail := fun mid =>
    ((findCode_suffix _ context FmtCode.all).trans (fieldWidth_suffix _ mid)).trans
      (fieldModifier_suffix f.tail p)
  unfold parseFormat
  dsimp only
  split
  · exact (formatTrailer_suffix _ _).trans (code _)
  · exact code _

/-! ## The codes -/

/-- The code stands at the position, in a context it is made for. -/
def FmtCode.Matches (code : FmtCode) (f : List Char) (context : Context) : Prop :=
  context ∈ code.fmt.context ∧ code.fmt.fmtMain = charAt f ∧
    (code.fmt.fmtSub = '\x00' ∨ code.fmt.fmtSub = charAt f.tail)

theorem findCode_matches (f : List Char) (context : Context) (codes : List FmtCode) :
    (findCode f context codes).2 = .unknown ∨
      (findCode f context codes).2.Matches f context := by
  induction codes with
  | nil => exact Or.inl rfl
  | cons code rest ih =>
      rw [findCode]
      split
      · exact ih
      · next inContext =>
          split
          · exact ih
          · next isMain =>
              have inContext := not_not.mp inContext
              have isMain := not_not.mp isMain
              split
              · next isSub => exact Or.inr ⟨inContext, isMain, Or.inr isSub.1⟩
              · split
                · next noSub => exact Or.inr ⟨inContext, isMain, Or.inl noSub⟩
                · exact ih

/-- A code without a second character is found, or one before it. -/
theorem findCode_ne_unknown {f : List Char} {context : Context} {codes : List FmtCode}
    {code : FmtCode} (member : code ∈ codes) (inContext : context ∈ code.fmt.context)
    (isMain : code.fmt.fmtMain = charAt f) (noSub : code.fmt.fmtSub = '\x00')
    (others : ∀ other ∈ codes, other.fmt.fmtMain = charAt f → other ≠ .unknown) :
    (findCode f context codes).2 ≠ .unknown := by
  induction codes with
  | nil => cases member
  | cons first rest ih =>
      have later : code ∈ rest → (findCode f context rest).2 ≠ .unknown := fun inRest =>
        ih inRest fun other member => others other (List.mem_cons_of_mem _ member)
      rw [findCode]
      split
      · next notHere =>
          apply later
          rcases List.mem_cons.mp member with rfl | inRest
          · exact absurd inContext notHere
          · exact inRest
      · split
        · next notMain =>
            apply later
            rcases List.mem_cons.mp member with rfl | inRest
            · exact absurd isMain notMain
            · exact inRest
        · next isFirst =>
            have known := others first (List.mem_cons_self ..) (not_not.mp isFirst)
            split
            · exact known
            · split
              · exact known
              · next sub =>
                  apply later
                  rcases List.mem_cons.mp member with rfl | inRest
                  · exact absurd noSub sub
                  · exact inRest

/-- The characters that start a format code at the top level. -/
def topLevelCodes : List Char := "ABCDFGLMNORSUVabcdeklmnopqrstuvwz%".toList

theorem findCode_topLevel (f : List Char) :
    (findCode f .pkg FmtCode.all).2 ≠ .unknown ↔ charAt f ∈ topLevelCodes := by
  constructor
  · intro known
    obtain ⟨inContext, isMain, _⟩ := (findCode_matches f .pkg FmtCode.all).resolve_left known
    rw [← isMain]
    have starts : ∀ code : FmtCode, .pkg ∈ code.fmt.context → code ≠ .unknown →
        code.fmt.fmtMain ∈ topLevelCodes := by
      intro code
      cases code <;> decide
    exact starts _ inContext known
  · intro starts
    have isCode : topLevelCodes.all (fun c => FmtCode.all.any fun code =>
        code.fmt.context.contains .pkg && (code.fmt.fmtMain == c && code.fmt.fmtSub == '\x00')) =
          true := by decide
    have notEnd : '\x00' ∉ topLevelCodes := by decide
    obtain ⟨code, member, isCode⟩ := List.any_eq_true.mp (List.all_eq_true.mp isCode _ starts)
    simp only [Bool.and_eq_true, beq_iff_eq, List.contains_iff_mem] at isCode
    obtain ⟨inContext, isMain, noSub⟩ := isCode
    refine findCode_ne_unknown member inContext isMain noSub fun other _ otherMain isUnknown => ?_
    have isEnd : '\x00' = charAt f := by rw [← otherMain, isUnknown]; rfl
    rw [← isEnd] at starts
    exact notEnd starts

/-- Where the format code of an escape stands: behind the modifiers and the width. -/
def codeOf (f : List Char) : List Char :=
  (f.tail.dropWhile fun c => c ∈ "?#-+ 0\x27".toList).dropWhile Char.isDigit

theorem modifier_isSome (c : Char) (flags : Flags) :
    (modifier c flags).isSome = decide (c ∈ "?#-+ 0\x27".toList) := by
  unfold modifier
  split
  case h_8 alternate1 alternate2 left plus space zero thousands =>
      have noModifier : c ∉ "?#-+ 0\x27".toList := by
        simp only [String.reduceToList, List.mem_cons, List.not_mem_nil, or_false, not_or]
        exact ⟨alternate1, alternate2, left, plus, space, zero, thousands⟩
      rw [decide_eq_false noModifier]
      rfl
  all_goals rfl

theorem fieldModifier_fst (f : List Char) (p : PercentEsc) :
    (fieldModifier f p).1 = f.dropWhile fun c => c ∈ "?#-+ 0\x27".toList := by
  induction f generalizing p with
  | nil => rfl
  | cons c f ih =>
      rw [fieldModifier, List.dropWhile_cons, ← modifier_isSome c p.flags]
      cases modifier c p.flags with
      | none => rfl
      | some flags => exact ih _

theorem fieldWidth_fst (f : List Char) (p : PercentEsc) :
    (fieldWidth f p).1 = f.dropWhile Char.isDigit := by
  induction f generalizing p with
  | nil => rfl
  | cons c f ih =>
      rw [fieldWidth, List.dropWhile_cons]
      split
      · exact ih _
      · rfl

theorem formatTrailer_fmtCode (f : List Char) (p : PercentEsc) :
    (formatTrailer f p).2.fmtCode = p.fmtCode := by
  unfold formatTrailer
  split
  · dsimp only
    split
    · rfl
    · rfl
    · split
      · rfl
      · rfl
  · rfl

theorem parseFormat_fmtCode (f : List Char) (context : Context) (p : PercentEsc) :
    (parseFormat f context p).2.fmtCode = (findCode (codeOf f) context FmtCode.all).2 := by
  have code : ∀ mid, (findCode (fieldWidth (fieldModifier f.tail p).1 mid).1 context
      FmtCode.all).2 = (findCode (codeOf f) context FmtCode.all).2 := by
    intro mid
    rw [fieldWidth_fst, fieldModifier_fst, codeOf]
  unfold parseFormat
  dsimp only
  split
  · rw [formatTrailer_fmtCode]
    exact code _
  · exact code _

end Pkgng
