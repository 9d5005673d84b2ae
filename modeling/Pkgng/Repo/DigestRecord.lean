import Mathlib.Data.List.TakeWhile
import Pkgng.Lib.Dimacs

/-!
# Digest records

The line a worker of `pkg_create_repo_worker` sends for a package and the parser of
`pkg_create_repo_read_pipe`.  The line goes through a buffer of 1024 bytes, and the
parser splits it at the colons.
-/

set_option autoImplicit false

namespace Pkgng

open Lib

/-- The bytes of a text or of a file. -/
abbrev Text := List Char

/-- What `pkg_open`, `pkg_emit_manifest_sbuf`, `pkg_emit_filelist`, the digest and
`sha256_file` produce for one package file. -/
structure RepoPackage where
  origin : Text
  manifest : Text
  filelist : Text := []
  digest : Text
  checksum : Text
deriving DecidableEq, Repr

/-- `struct digest_list_entry`. -/
structure DigestEntry where
  origin : Option Text := none
  digest : Option Text := none
  manifestPos : Int := 0
  filesPos : Int := 0
  manifestLength : Int := 0
  checksum : Option Text := none
deriving DecidableEq, Repr

/-- A written manifest: where it starts, and where the file list starts. -/
structure Region where
  mpos : Nat
  fpos : Nat
  pkg : RepoPackage
deriving DecidableEq, Repr

/-- `"%s:%s:%ld:%ld:%ld:%s\n"`. -/
def digestLine (region : Region) : Text :=
  region.pkg.origin ++ ':' :: region.pkg.digest ++ ':' :: Nat.toDigits 10 region.mpos ++
    ':' :: Nat.toDigits 10 region.fpos ++ ':' :: Nat.toDigits 10 region.pkg.manifest.length ++
    ':' :: region.pkg.checksum ++ ['\n']

/-- The size of `digestbuf` and of the buffer of the reader. -/
def digestBufSize : Nat := 1024

/-- What the reader gets of the line.  `snprintf` returns the length of the whole
line, and `sendmsg` sends as many bytes; a line that does not fit ends in the
terminating zero, and whatever follows it is beyond the buffer of the reader. -/
def digestMessage (line : Text) : Text :=
  if line.length < digestBufSize then line
  else line.take (digestBufSize - 1) ++ [Char.ofNat 0]

/-- `strtol` in base ten, without the overflow. -/
def strtol (text : Text) : Int :=
  let value := fun digits : Text => (Nat.ofDigitChars 10 (digits.takeWhile Char.isDigit) 0 : Int)
  match text.dropWhile Char.isWhitespace with
  | '-' :: digits => -value digits
  | '+' :: digits => value digits
  | digits => value digits

inductive DigestField
  | setOrigin
  | setDigest
  | setMpos
  | setFpos
  | setMlen
  | setChecksum
deriving DecidableEq, Repr

/-- `state` and `dig`, which is not initialised. -/
structure PipeState where
  field : DigestField := .setOrigin
  entry : Option DigestEntry := none
deriving DecidableEq, Repr

/-- A colon after the token.  The last branch copies the token over the digest. -/
def PipeState.colon (state : PipeState) (token : Text) : PipeState :=
  match state.field with
  | .setOrigin => { field := .setDigest, entry := some { origin := some token } }
  | .setDigest =>
      { field := .setMpos
        entry := state.entry.map fun entry => { entry with digest := some token } }
  | .setMpos =>
      { field := .setFpos
        entry := state.entry.map fun entry => { entry with manifestPos := strtol token } }
  | .setFpos =>
      { field := .setMlen
        entry := state.entry.map fun entry => { entry with filesPos := strtol token } }
  | .setMlen =>
      { field := .setChecksum
        entry := state.entry.map fun entry => { entry with manifestLength := strtol token } }
  | .setChecksum =>
      { field := .setOrigin
        entry := state.entry.map fun entry =>
          { entry with checksum := some [], digest := some token } }

/-- The end of the line after the token. -/
def PipeState.newline (state : PipeState) (token : Text) : Option DigestEntry :=
  match state.field with
  | .setMlen => state.entry.map fun entry => { entry with manifestLength := strtol token }
  | .setChecksum => state.entry.map fun entry => { entry with checksum := some token }
  | _ => state.entry

/-- What one `read` makes of the message: the state to go on with, an entry for the
list, the end of the worker, or a failed assertion. -/
inductive PipeResult
  | more (state : PipeState)
  | record (entry : DigestEntry) (state : PipeState)
  | finished
  | abort
deriving DecidableEq, Repr

/-- The loop over the buffer; `token` is what stands between `start` and `i`. -/
def readMessage (state : PipeState) (token : Text) : Text → PipeResult
  | [] => .more state
  | c :: rest =>
      if c = ':' then readMessage (state.colon token) [] rest
      else if c = '\n' then
        match state.newline token with
        | none => .abort
        | some entry =>
            if entry.origin.isSome && entry.digest.isSome then
              .record entry { field := .setOrigin, entry := some entry }
            else .abort
      else if c = '.' ∧ rest.head? = some '\n' then .finished
      else readMessage state (token ++ [c]) rest

/-- The end marker of a worker. -/
def endMessage : Text := ['.', '\n']

/-- The entry that records the region. -/
def Region.entry (region : Region) : DigestEntry where
  origin := some region.pkg.origin
  digest := some region.pkg.digest
  manifestPos := region.mpos
  filesPos := region.fpos
  manifestLength := region.pkg.manifest.length
  checksum := some region.pkg.checksum

/-- The line fits the buffer, and its texts do not hold what separates them. -/
structure Region.Fits (region : Region) : Prop where
  length : (digestLine region).length < digestBufSize
  origin : ':' ∉ region.pkg.origin ∧ '\n' ∉ region.pkg.origin
  digest : ':' ∉ region.pkg.digest ∧ '\n' ∉ region.pkg.digest
  checksum : ':' ∉ region.pkg.checksum ∧ '\n' ∉ region.pkg.checksum ∧
    region.pkg.checksum.getLast? ≠ some '.'

/-! ## Reading a line back -/

theorem digestMessage_of_fits {region : Region} (fits : region.Fits) :
    digestMessage (digestLine region) = digestLine region :=
  if_pos fits.length

theorem strtol_toDigits (value : Nat) : strtol (Nat.toDigits 10 value) = value := by
  have digit : ∀ c ∈ Nat.toDigits 10 value, c.isDigit = true :=
    fun c member => Nat.isDigit_of_mem_toDigits (by decide) (by decide) member
  have whole : (Nat.toDigits 10 value).takeWhile Char.isDigit = Nat.toDigits 10 value := by
    rw [List.takeWhile_eq_self_iff]
    exact digit
  cases spelled : Nat.toDigits 10 value with
  | nil => exact absurd spelled Nat.toDigits_ne_nil
  | cons c rest =>
      rw [spelled] at whole
      have first := digit c (by rw [spelled]; exact List.mem_cons_self)
      have notSpace : c.isWhitespace = false := by
        by_contra space
        simp only [Bool.not_eq_false, Char.isWhitespace, Bool.or_eq_true, decide_eq_true_eq]
          at space
        rcases space with ((rfl | rfl) | rfl) | rfl <;> cases first
      have value_eq : Nat.ofDigitChars 10 (c :: rest) 0 = value := by
        rw [← spelled, Nat.ofDigitChars_toDigits (by decide) (by decide)]
      unfold strtol
      rw [List.dropWhile_cons_of_neg (by simp [notSpace])]
      split
      · next same => cases (List.cons.inj same).1; cases first
      · next same => cases (List.cons.inj same).1; cases first
      · dsimp only
        rw [whole, value_eq]

theorem readMessage_colon {state : PipeState} {before token rest : Text}
    (noColon : ':' ∉ token) (noNewline : '\n' ∉ token) :
    readMessage state before (token ++ ':' :: rest) =
      readMessage (state.colon (before ++ token)) [] rest := by
  induction token generalizing before with
  | nil => simp [readMessage]
  | cons c token ih =>
      rw [List.mem_cons, not_or] at noColon noNewline
      have noDot : ¬(c = '.' ∧ (token ++ ':' :: rest).head? = some '\n') := by
        rintro ⟨_, next⟩
        cases token with
        | nil => cases next
        | cons d token =>
            cases Option.some.inj next
            exact noNewline.2 List.mem_cons_self
      rw [List.cons_append, readMessage, if_neg (Ne.symm noColon.1), if_neg (Ne.symm noNewline.1),
        if_neg noDot, ih noColon.2 noNewline.2, List.append_assoc]
      rfl

theorem readMessage_newline {state : PipeState} {before token : Text}
    (noColon : ':' ∉ token) (noNewline : '\n' ∉ token) (noDot : token.getLast? ≠ some '.') :
    readMessage state before (token ++ ['\n']) =
      readMessage state (before ++ token) ['\n'] := by
  induction token generalizing before with
  | nil => simp
  | cons c token ih =>
      rw [List.mem_cons, not_or] at noColon noNewline
      have noEnd : ¬(c = '.' ∧ (token ++ ['\n']).head? = some '\n') := by
        rintro ⟨rfl, next⟩
        cases token with
        | nil => exact noDot rfl
        | cons d token =>
            cases Option.some.inj next
            exact noNewline.2 List.mem_cons_self
      have noDotRest : token.getLast? ≠ some '.' := by
        intro last
        apply noDot
        rw [List.getLast?_cons, last]
        rfl
      rw [List.cons_append, readMessage, if_neg (Ne.symm noColon.1), if_neg (Ne.symm noNewline.1),
        if_neg noEnd, ih noColon.2 noNewline.2 noDotRest, List.append_assoc]
      rfl

/-- A line that fits is read as the entry of its region. -/
theorem readMessage_digestLine {region : Region} (fits : region.Fits)
    (entry : Option DigestEntry) :
    readMessage { field := .setOrigin, entry := entry } [] (digestLine region) =
      .record region.entry { field := .setOrigin, entry := some region.entry } := by
  have noColon : ∀ value, ':' ∉ Nat.toDigits 10 value := Dimacs.notMem_toDigits rfl
  have noNewline : ∀ value, '\n' ∉ Nat.toDigits 10 value := Dimacs.notMem_toDigits rfl
  simp only [digestLine, List.append_assoc, List.cons_append]
  rw [readMessage_colon fits.origin.1 fits.origin.2,
    readMessage_colon fits.digest.1 fits.digest.2,
    readMessage_colon (noColon _) (noNewline _), readMessage_colon (noColon _) (noNewline _),
    readMessage_colon (noColon _) (noNewline _),
    readMessage_newline fits.checksum.1 fits.checksum.2.1 fits.checksum.2.2]
  simp [readMessage, PipeState.colon, PipeState.newline, strtol_toDigits, Region.entry]

end Pkgng
