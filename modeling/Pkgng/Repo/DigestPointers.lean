import Pkgng.Lib.BufferTokens
import Pkgng.Repo.DigestsFile

/-!
# The pointers of the digest loop

The loop of `pkg_repo_binary_update_incremental` over the bytes of `linebuf`.  `length` and
`checksum` are declared outside of it, without a value, and set only where the line has more to
read; what they point to otherwise is left from an earlier line or from a package of the
database.
-/

set_option autoImplicit false

namespace Pkgng

open Lib

/-- `length` or `checksum`.  It is `undefined` before it is initialised, and where it points into
a buffer that `getline` has replaced. -/
inductive FieldPointer
  | undefined
  | null
  | linebuf (position : Nat)
  | package (cksum : Text)
deriving DecidableEq, Repr

/-- The string; `none` where the pointer is undefined. -/
def FieldPointer.read (buf : List Char) : FieldPointer → Option (Option Text)
  | .undefined => none
  | .null => some none
  | .linebuf position => some (some (cstringAt buf position))
  | .package cksum => some (some cksum)

def FieldPointer.freed : FieldPointer → FieldPointer
  | .linebuf _ => .undefined
  | pointer => pointer

/-- The variables that a turn of the loop leaves to the next. -/
structure LineMemory where
  linebuf : List Char := []
  linecap : Nat := 0
  length : FieldPointer
  checksum : FieldPointer
deriving DecidableEq, Repr

inductive LineEntry
  | undefined
  | refused
  | entry (item : TaskItem)
deriving DecidableEq, Repr

/-- The tests of the fields. -/
def lineEntry (origin digest offset : Option Text) (length checksum : Option (Option Text)) :
    LineEntry :=
  match origin, digest, offset with
  | some origin, some digest, some offset =>
      match strtoulErrno offset with
      | none => .refused
      | some numOffset =>
          match length with
          | none => .undefined
          | some length =>
              match length.elim (some 0) strtoulErrno with
              | none => .refused
              | some numLength =>
                  match checksum with
                  | none => .undefined
                  | some checksum =>
                      .entry { origin, digest, offset := numOffset, length := numLength, checksum }
  | _, _, _ => .refused

section Loop

variable (capacity : Nat → Nat)

/-- `getline`; `capacity` is the size of the buffer that it makes for a line. -/
def LineMemory.getline (mem : LineMemory) (line : Text) : LineMemory :=
  if line.length < mem.linecap then
    { mem with linebuf := line ++ '\x00' :: mem.linebuf.drop (line.length + 1) }
  else
    { linebuf := line ++ ['\x00']
      linecap := capacity (line.length + 1)
      length := mem.length.freed
      checksum := mem.checksum.freed }

/-- `if (p) pointer = strsep(&p, ":\n")`. -/
def strsepIf (pointer : FieldPointer) (buf : List Char) (p : Option Nat) :
    FieldPointer × Option Nat × List Char :=
  if p.isSome then
    let (token, p, buf) := strsepAt [':', '\n'] buf p
    (token.elim .null .linebuf, p, buf)
  else (pointer, p, buf)

/-- A turn of the loop, up to the comparison with the packages. -/
def LineMemory.turn (mem : LineMemory) (line : Text) : LineEntry × LineMemory :=
  let mem := mem.getline capacity line
  let (origin, p, buf) := strsepAt [':'] mem.linebuf (some 0)
  let (digest, p, buf) := strsepAt [':'] buf p
  let (offset, p, buf) := strsepAt [':'] buf p
  let (_, p, buf) := strsepAt [':'] buf p
  let (length, p, buf) := strsepIf mem.length buf p
  let (checksum, _, buf) := strsepIf mem.checksum buf p
  (lineEntry (origin.map (cstringAt buf)) (digest.map (cstringAt buf))
      (offset.map (cstringAt buf)) (length.read buf) (checksum.read buf),
    { mem with linebuf := buf, length, checksum })

/-- The variables before the loop: the first line has been read for its digest, and `checksum`
has been set for each package of the database. -/
def initialMemory (cksums : List (Option Text)) (lines : List Text) : LineMemory :=
  let mem : LineMemory := { length := .undefined, checksum := .undefined }
  let mem :=
    match lines with
    | [] => mem
    | first :: _ =>
        let mem := mem.getline capacity first
        let (_, p, buf) := strsepAt [':'] mem.linebuf (some 0)
        let (_, _, buf) := strsepAt [':'] buf p
        { mem with linebuf := buf }
  match cksums.getLast? with
  | none => mem
  | some cksum => { mem with checksum := cksum.elim .null .package }

/-- The variables behind some lines; `none` where the loop has ended before. -/
def memoryBehind (mem : LineMemory) : List Text → Option LineMemory
  | [] => some mem
  | line :: rest =>
      match mem.turn capacity line with
      | (.entry _, mem) => memoryBehind mem rest
      | _ => none

/-- The entry of a line with absent fields treated as absent. -/
def aloneEntry (line : Text) : LineEntry :=
  (LineMemory.turn capacity { length := .null, checksum := .null } line).1

/-- Wherever the line stands, its entry is the same. -/
def DependsOnLineOnly (line : Text) : Prop :=
  ∀ (file : Text) (before after : List Text) (cksums : List (Option Text)) (mem : LineMemory),
    getlines file = before ++ line :: after →
    memoryBehind capacity (initialMemory capacity cksums (getlines file)) before = some mem →
    (mem.turn capacity line).1 = aloneEntry capacity line

def ParsedIndependently (file : Text) : Prop :=
  ∀ line ∈ getlines file, DependsOnLineOnly capacity line

end Loop

/-- What stands behind so many colons. -/
def behindColons : Nat → Option Text → Option Text
  | 0, p => p
  | count + 1, p => behindColons count (strsep [':'] p).2

/-- The line has an end of its length, so `length` and `checksum` are set. -/
def SetsBoth (text : Text) : Prop :=
  ∃ rest, behindColons 4 (some text) = some rest ∧ ∃ c ∈ rest, c ∈ [':', '\n']

/-- The line has no offset, or its offset or its length is no number. -/
def RefusedAlone (text : Text) : Prop :=
  behindColons 2 (some text) = none ∨
    (∃ rest, behindColons 2 (some text) = some rest ∧
      strtoulErrno (rest.takeWhile (· ∉ [':'])) = none) ∨
    ∃ rest, behindColons 4 (some text) = some rest ∧
      strtoulErrno (rest.takeWhile (· ∉ [':', '\n'])) = none

/-! ## A turn and the text of its line -/

theorem strsepIf_eq (pointer : FieldPointer) (buf : List Char) (p : Option Nat) :
    strsepIf pointer buf p =
      ((strsepAt [':', '\n'] buf p).1.elim pointer .linebuf, (strsepAt [':', '\n'] buf p).2) := by
  cases p with
  | none => rfl
  | some start =>
      have token : (strsepAt [':', '\n'] buf (some start)).1 = some start := by
        unfold strsepAt
        dsimp only
        split <;> rfl
      simp [strsepIf, token]

theorem uptoNul_line (line rest : Text) : uptoNul (line ++ '\x00' :: rest) = uptoNul line := by
  induction line with
  | nil => rfl
  | cons c line ih =>
      simp only [uptoNul] at ih
      simp only [uptoNul, List.cons_append, List.takeWhile_cons, ih]

theorem LineMemory.getline_linebuf (capacity : Nat → Nat) (mem : LineMemory) (line : Text) :
    cstringAt (mem.getline capacity line).linebuf 0 = uptoNul line := by
  rw [cstringAt, List.drop_zero, getline]
  split
  · exact uptoNul_line line _
  · exact uptoNul_line line []

theorem LineMemory.getline_length (capacity : Nat → Nat) {mem : LineMemory} (line : Text)
    (elsewhere : mem.length.freed = mem.length) :
    (mem.getline capacity line).length = mem.length := by
  unfold getline
  split
  · rfl
  · exact elsewhere

theorem LineMemory.getline_checksum (capacity : Nat → Nat) {mem : LineMemory} (line : Text)
    (elsewhere : mem.checksum.freed = mem.checksum) :
    (mem.getline capacity line).checksum = mem.checksum := by
  unfold getline
  split
  · rfl
  · exact elsewhere

/-- The delimiters of the six fields. -/
def fieldDelimiters : List (List Char) :=
  [[':'], [':'], [':'], [':'], [':', '\n'], [':', '\n']]

/-- The fields as texts, null where the line has ended. -/
structure LineFields where
  origin : Option Text
  digest : Option Text
  offset : Option Text
  length : Option Text
  checksum : Option Text

def lineFields (text : Text) : LineFields where
  origin := (strsep [':'] (some text)).1
  digest := (strsep [':'] (behindColons 1 (some text))).1
  offset := (strsep [':'] (behindColons 2 (some text))).1
  length := (strsep [':', '\n'] (behindColons 4 (some text))).1
  checksum := (strsep [':', '\n'] (strsep [':', '\n'] (behindColons 4 (some text))).2).1

/-- The fields that are set are the texts of the line, whatever the memory was; the others are
read where the pointers pointed before. -/
theorem LineMemory.turn_eq (capacity : Nat → Nat) (mem : LineMemory) (line : Text) :
    ∃ buf, (mem.turn capacity line).1 =
      lineEntry (lineFields (uptoNul line)).origin (lineFields (uptoNul line)).digest
        (lineFields (uptoNul line)).offset
        ((lineFields (uptoNul line)).length.elim ((mem.getline capacity line).length.read buf)
          fun text => some (some text))
        ((lineFields (uptoNul line)).checksum.elim ((mem.getline capacity line).checksum.read buf)
          fun text => some (some text)) := by
  generalize isMem : mem.getline capacity line = got
  have texts := strsepsAt_texts fieldDelimiters got.linebuf 0
  rw [← isMem, mem.getline_linebuf, isMem] at texts
  obtain ⟨origin, p, buf, first⟩ : ∃ origin p buf,
      strsepAt [':'] got.linebuf (some 0) = (origin, p, buf) := ⟨_, _, _, rfl⟩
  obtain ⟨digest, p', buf', second⟩ : ∃ digest p' buf',
      strsepAt [':'] buf p = (digest, p', buf') := ⟨_, _, _, rfl⟩
  obtain ⟨offset, p, buf, third⟩ : ∃ offset p buf,
      strsepAt [':'] buf' p' = (offset, p, buf) := ⟨_, _, _, rfl⟩
  obtain ⟨filesOffset, p', buf', fourth⟩ : ∃ filesOffset p' buf',
      strsepAt [':'] buf p = (filesOffset, p', buf') := ⟨_, _, _, rfl⟩
  obtain ⟨length, p, buf, fifth⟩ : ∃ length p buf,
      strsepAt [':', '\n'] buf' p' = (length, p, buf) := ⟨_, _, _, rfl⟩
  obtain ⟨checksum, p', buf', sixth⟩ : ∃ checksum p' buf',
      strsepAt [':', '\n'] buf p = (checksum, p', buf') := ⟨_, _, _, rfl⟩
  simp only [fieldDelimiters, strsepsAt, first, second, third, fourth, fifth, sixth, strseps,
    List.map_cons, List.map_nil, List.cons.injEq] at texts
  obtain ⟨isOrigin, isDigest, isOffset, -, isLength, isChecksum, -⟩ := texts
  refine ⟨buf', ?_⟩
  simp only [turn, isMem, first, second, third, fourth, strsepIf_eq, fifth, sixth]
  simp only [lineFields, behindColons, ← isOrigin, ← isDigest, ← isOffset, ← isLength,
    ← isChecksum]
  cases length <;> cases checksum <;> rfl

theorem digestFields_eq (leftover : Option Text × Option Text) (text : Text) :
    digestFields leftover text =
      { origin := (lineFields text).origin
        digest := (lineFields text).digest
        offset := (lineFields text).offset
        length := (lineFields text).length.or leftover.1
        checksum := (lineFields text).checksum.or leftover.2 } := by
  unfold digestFields lineFields
  simp only [behindColons]
  generalize (strsep [':'] (strsep [':'] (strsep [':'] (strsep [':'] (some text)).2).2).2).2 = p
  cases p with
  | none => rfl
  | some rest =>
      have token := strsep_fst [':', '\n'] (some rest)
      simp only [Option.isSome_some, if_true, token, Option.map_some, Option.some_or]
      generalize (strsep [':', '\n'] (some rest)).2 = p
      cases p with
      | none => rfl
      | some rest => simp [strsep_fst]

/-- Where the pointers that are not set can be read, the turn is that of `digestItem`. -/
theorem LineMemory.turn_digestItem (capacity : Nat → Nat) (mem : LineMemory) (line : Text)
    (env : UpdateEnv) (number : Nat) :
    ∃ buf, ∀ length checksum,
      (mem.getline capacity line).length.read buf = some length →
      (mem.getline capacity line).checksum.read buf = some checksum →
      (mem.turn capacity line).1 =
        (digestItem
          { env with strtoul := strtoulErrno, leftover := fun _ => (length, checksum) } number
          (uptoNul line)).elim .refused .entry := by
  obtain ⟨buf, turn⟩ := mem.turn_eq capacity line
  refine ⟨buf, fun length checksum readLength readChecksum => ?_⟩
  rw [turn, readLength, readChecksum]
  unfold digestItem
  rw [digestFields_eq]
  generalize lineFields (uptoNul line) = fields
  obtain ⟨origin, digest, offset, lineLength, lineChecksum⟩ := fields
  cases origin with
  | none => rfl
  | some origin =>
  cases digest with
  | none => rfl
  | some digest =>
  cases offset with
  | none => rfl
  | some offset =>
  cases isOffset : strtoulErrno offset with
  | none => simp [lineEntry, isOffset]
  | some numOffset =>
  have lengthRead : lineLength.elim (some length) (fun text => some (some text)) =
      some (lineLength.or length) := by cases lineLength <;> rfl
  have checksumRead : lineChecksum.elim (some checksum) (fun text => some (some text)) =
      some (lineChecksum.or checksum) := by cases lineChecksum <;> rfl
  rw [lengthRead, checksumRead]
  cases lineLength.or length with
  | none => simp [lineEntry, isOffset]
  | some text =>
  cases isLength : strtoulErrno text with
  | none => simp [lineEntry, isOffset, isLength]
  | some numLength => simp [lineEntry, isOffset, isLength]

/-- An absent field is an absent field of the item. -/
theorem aloneEntry_eq (capacity : Nat → Nat) (line : Text) (env : UpdateEnv) (number : Nat) :
    aloneEntry capacity line =
      (digestItem { env with strtoul := strtoulErrno, leftover := fun _ => (none, none) } number
        (uptoNul line)).elim .refused .entry := by
  obtain ⟨buf, turn⟩ :=
    LineMemory.turn_digestItem capacity { length := .null, checksum := .null } line env number
  apply turn
  · rw [LineMemory.getline_length capacity line rfl]
    rfl
  · rw [LineMemory.getline_checksum capacity line rfl]
    rfl

/-! ## The lines that depend on themselves only -/

/-- Whatever is read for the fields that are not set. -/
theorem lineEntry_eq {origin digest offset length checksum : Option Text}
    (settled : offset = none ∨ (∃ text, offset = some text ∧ strtoulErrno text = none) ∨
      (∃ text, length = some text ∧ strtoulErrno text = none) ∨
      length.isSome = true ∧ checksum.isSome = true)
    (staleLength staleChecksum otherLength otherChecksum : Option (Option Text)) :
    lineEntry origin digest offset (length.elim staleLength fun text => some (some text))
        (checksum.elim staleChecksum fun text => some (some text)) =
      lineEntry origin digest offset (length.elim otherLength fun text => some (some text))
        (checksum.elim otherChecksum fun text => some (some text)) := by
  rcases settled with rfl | ⟨text, rfl, refused⟩ | ⟨text, rfl, refused⟩ | ⟨isLength, isChecksum⟩
  · cases origin <;> cases digest <;> rfl
  · cases origin <;> cases digest <;> simp [lineEntry, refused]
  · cases origin <;> cases digest <;> cases offset <;> simp [lineEntry, refused]
  · obtain ⟨text, rfl⟩ := Option.isSome_iff_exists.mp isLength
    obtain ⟨text, rfl⟩ := Option.isSome_iff_exists.mp isChecksum
    rfl

/-- Undefined pointers are as good as null pointers only for such lines. -/
theorem settled_of_undefined {origin digest : Text} {offset length checksum : Option Text}
    (same : lineEntry (some origin) (some digest) offset
        (length.elim none fun text => some (some text))
        (checksum.elim none fun text => some (some text)) =
      lineEntry (some origin) (some digest) offset
        (length.elim (some none) fun text => some (some text))
        (checksum.elim (some none) fun text => some (some text)))
    (inOrder : length = none → checksum = none) :
    offset = none ∨ (∃ text, offset = some text ∧ strtoulErrno text = none) ∨
      (∃ text, length = some text ∧ strtoulErrno text = none) ∨
      length.isSome = true ∧ checksum.isSome = true := by
  cases offset with
  | none => exact .inl rfl
  | some offset =>
  refine .inr ?_
  cases isOffset : strtoulErrno offset with
  | none => exact .inl ⟨offset, rfl, isOffset⟩
  | some numOffset =>
  refine .inr ?_
  cases length with
  | none => simp [lineEntry, isOffset, inOrder rfl] at same
  | some length =>
  cases isLength : strtoulErrno length with
  | none => exact .inl ⟨length, rfl, isLength⟩
  | some numLength =>
  refine .inr ⟨rfl, ?_⟩
  cases checksum with
  | none => simp [lineEntry, isOffset, isLength] at same
  | some checksum => rfl

theorem settled_iff (text : Text) :
    ((lineFields text).offset = none ∨
      (∃ offset, (lineFields text).offset = some offset ∧ strtoulErrno offset = none) ∨
      (∃ length, (lineFields text).length = some length ∧ strtoulErrno length = none) ∨
      (lineFields text).length.isSome = true ∧ (lineFields text).checksum.isSome = true) ↔
      RefusedAlone text ∨ SetsBoth text := by
  have both : (lineFields text).length.isSome = true ∧ (lineFields text).checksum.isSome = true ↔
      SetsBoth text := by
    unfold lineFields SetsBoth
    simp only [strsep_fst, Option.isSome_map]
    cases behindColons 4 (some text) with
    | none => simp
    | some rest => simp [isSome_strsep_snd]
  rw [both]
  unfold RefusedAlone lineFields
  simp only [strsep_fst, Option.map_eq_none_iff, Option.map_eq_some_iff,
    exists_exists_and_eq_and, or_assoc]

theorem lineFields_origin_digest {text : Text} (offset : (lineFields text).offset.isSome = true) :
    ∃ origin digest, (lineFields text).origin = some origin ∧
      (lineFields text).digest = some digest := by
  simp only [lineFields, strsep_fst, Option.isSome_map] at offset ⊢
  cases first : behindColons 1 (some text) with
  | none =>
      have second : behindColons 2 (some text) = (strsep [':'] (behindColons 1 (some text))).2 := rfl
      rw [second, first] at offset
      cases offset
  | some rest => exact ⟨_, _, rfl, rfl⟩

theorem lineFields_inOrder {text : Text} (length : (lineFields text).length = none) :
    (lineFields text).checksum = none := by
  simp only [lineFields, strsep_fst, Option.map_eq_none_iff] at length ⊢
  rw [length]
  rfl

theorem dependsOnLineOnly_iff (capacity : Nat → Nat) {file line : Text}
    (member : line ∈ getlines file) :
    DependsOnLineOnly capacity line ↔
      RefusedAlone (uptoNul line) ∨ SetsBoth (uptoNul line) := by
  rw [← settled_iff]
  constructor
  · intro depends
    -- The line is the only one, and the database is empty.
    have only := getlines_of_mem member
    have entry := depends line [] [] [] _ only rfl
    rw [only] at entry
    generalize isMem : initialMemory capacity [] [line] = mem at entry
    have length : mem.length = .undefined := by
      rw [← isMem]
      exact LineMemory.getline_length capacity line rfl
    have checksum : mem.checksum = .undefined := by
      rw [← isMem]
      exact LineMemory.getline_checksum capacity line rfl
    obtain ⟨buf, turn⟩ := mem.turn_eq capacity line
    obtain ⟨buf', alone⟩ :=
      LineMemory.turn_eq capacity { length := .null, checksum := .null } line
    rw [LineMemory.getline_length capacity line (by rw [length]; rfl),
      LineMemory.getline_checksum capacity line (by rw [checksum]; rfl), length, checksum] at turn
    rw [LineMemory.getline_length capacity line rfl,
      LineMemory.getline_checksum capacity line rfl] at alone
    rw [turn, aloneEntry, alone] at entry
    by_cases offset : (lineFields (uptoNul line)).offset.isSome = true
    · obtain ⟨origin, digest, isOrigin, isDigest⟩ := lineFields_origin_digest offset
      rw [isOrigin, isDigest] at entry
      exact settled_of_undefined entry lineFields_inOrder
    · exact .inl (Option.not_isSome_iff_eq_none.mp offset)
  · intro settled file before after cksums mem lines reached
    obtain ⟨buf, turn⟩ := mem.turn_eq capacity line
    obtain ⟨buf', alone⟩ :=
      LineMemory.turn_eq capacity { length := .null, checksum := .null } line
    rw [turn, aloneEntry, alone]
    exact lineEntry_eq settled _ _ _ _

/-- The digests are parsed line by line exactly where every line that is not refused sets its
length and its checksum. -/
theorem parsedIndependently_iff (capacity : Nat → Nat) (file : Text) :
    ParsedIndependently capacity file ↔
      ∀ line ∈ getlines file, RefusedAlone (uptoNul line) ∨ SetsBoth (uptoNul line) :=
  forall₂_congr fun _ member => dependsOnLineOnly_iff capacity member

/-- The second line has neither a length nor a checksum, and reads its own offset and a newline
where those of the first line stood. -/
def shortLineFile : Text := "a:b:1:0:77:abc\nccccc:d:5:0\n".toList

theorem shortLine_not_parsedIndependently :
    ¬∀ (capacity : Nat → Nat) (file : Text), ParsedIndependently capacity file := by
  intro all
  have second : "ccccc:d:5:0\n".toList ∈ getlines shortLineFile := by decide
  have entry := all id shortLineFile _ second shortLineFile ["a:b:1:0:77:abc\n".toList] [] [] _
    (by decide) rfl
  exact absurd entry (by decide)

end Pkgng
