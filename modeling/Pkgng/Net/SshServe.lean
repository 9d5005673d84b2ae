import Pkgng.Lib.CStrings

/-!
# The package server

`pkg_sshserve` answers the lines of its standard input.  Where `SSH_RESTRICT_DIR` is set, what it
answers does not depend on any file outside of that directory.
-/

set_option autoImplicit false

namespace Pkgng

open Lib

/-! ## Lines and replies -/

/-- What `fstatat` tells of a file. -/
structure ServedStat where
  isRegular : Bool
  size : Nat
  mtime : Int
  fits : size ≤ longMax

/-- What the system calls answer while a line is served: `openat` with all that `read` returns from
the file, `realpath` after the `chdir` to the restricted directory. -/
structure ServerFiles where
  fstatat : List Char → Option ServedStat
  openat : List Char → Option (List Char)
  realpath : List Char → Option (List Char)

/-- The line without its newline. -/
def chomp (line : List Char) : List Char :=
  if line.getLast? = some '\n' then line.dropLast else line

def sshKo (message : List Char) : List Char := "ko: ".toList ++ message ++ ['\n']

def sshOk (message : List Char) : List Char := "ok: ".toList ++ message ++ ['\n']

def sshNotFound : List Char := sshKo "file not found".toList

def sshBadCommand : List Char := sshKo "bad command get, expecting 'get file age'".toList

/-- The file and the age of a `get` command. -/
def sshArguments (command : List Char) : Option (List Char × List Char) :=
  match command with
  | [] => none
  | c :: rest =>
      let file := if c = '/' then rest else c :: rest
      match file.dropWhile (!isspace ·) with
      | [] => none
      | _ :: age => some (file.takeWhile (!isspace ·), age.dropWhile isspace)

/-- The check against the restricted directory. -/
def ServerFiles.permits (fs : ServerFiles) (restricted : Option (List Char)) (file : List Char) :
    Bool :=
  match restricted with
  | none => true
  | some dir =>
      match fs.realpath file, fs.realpath dir with
      | some fpath, some rpath => rpath.isPrefixOf fpath
      | _, _ => false

/-- The reply to a command that was understood. -/
def sshSendFile (restricted : Option (List Char)) (fs : ServerFiles) (file : List Char)
    (mtime : Int) : List Char :=
  if !fs.permits restricted file then sshNotFound
  else
    match fs.fstatat file with
    | none => sshNotFound
    | some st =>
        if !st.isRegular then sshKo "not a file".toList
        else if st.mtime ≤ mtime then sshOk ['0']
        else
          match fs.openat file with
          | none => sshNotFound
          | some content => sshOk (Nat.toDigits 10 st.size) ++ content

/-- One turn of the loop of `pkg_sshserve`; `none` for `quit`. -/
def pkgSshserveLine (restricted : Option (List Char)) (fs : ServerFiles) (line : List Char) :
    Option (List Char) :=
  let line := uptoNul (chomp line)
  if line = "quit".toList then none
  else if line.take 4 ≠ "get ".toList then
    some (sshKo ("unknown command '".toList ++ line ++ ['\'']))
  else
    match sshArguments (line.drop 4) with
    | none => some sshBadCommand
    | some (file, age) =>
        match strtonum age 0 longMax with
        | .error errstr => some (sshKo ("bad number ".toList ++ age ++ ": ".toList ++ errstr.toList))
        | .ok mtime => some (sshSendFile restricted fs file mtime)

def PKGVERSION : List Char := "1.4.0.pre-alpha11".toList

def sshGreeting : List Char := sshOk ("pkg ".toList ++ PKGVERSION)

/-- The loop of `pkg_sshserve`, the `n`-th line read while the files are as in `fs n`. -/
def sshServeLines (restricted : Option (List Char)) (fs : Nat → ServerFiles) :
    Nat → List (List Char) → List Char
  | _, [] => []
  | n, line :: rest =>
      match pkgSshserveLine restricted (fs n) line with
      | none => []
      | some reply => reply ++ sshServeLines restricted fs (n + 1) rest

/-- `pkg_sshserve`: what it prints for a standard input. -/
def pkgSshserve (restricted : Option (List Char)) (fs : Nat → ServerFiles) (input : List Char) :
    List Char :=
  sshGreeting ++ sshServeLines restricted fs 0 (getlines input)

/-! ## The restricted directory -/

/-- The two see the same files under the directory. -/
structure ServerFiles.AgreeWithin (dir : List Char) (fs fs' : ServerFiles) : Prop where
  realpath : fs.realpath = fs'.realpath
  fstatat : ∀ file, fs.permits (some dir) file = true → fs.fstatat file = fs'.fstatat file
  openat : ∀ file, fs.permits (some dir) file = true → fs.openat file = fs'.openat file

/-- The text of a reply: a single line, or a size and the content of a file. -/
inductive SshReply (restricted : Option (List Char)) (fs : ServerFiles) : List Char → Prop
  | refusal (message : List Char) (oneLine : '\n' ∉ message) :
      SshReply restricted fs (sshKo message)
  | upToDate : SshReply restricted fs (sshOk ['0'])
  | file {file content : List Char} {st : ServedStat} (permitted : fs.permits restricted file = true)
      (found : fs.fstatat file = some st) (regular : st.isRegular = true)
      (opened : fs.openat file = some content) :
      SshReply restricted fs (sshOk (Nat.toDigits 10 st.size) ++ content)

section Replies

variable {restricted : Option (List Char)} {fs fs' : ServerFiles} {dir : List Char}

theorem ServerFiles.AgreeWithin.permits (agree : fs.AgreeWithin dir fs') (file : List Char) :
    fs'.permits (some dir) file = fs.permits (some dir) file := by
  unfold ServerFiles.permits
  rw [agree.realpath]

theorem sshSendFile_agree (agree : fs.AgreeWithin dir fs') (file : List Char) (mtime : Int) :
    sshSendFile (some dir) fs' file mtime = sshSendFile (some dir) fs file mtime := by
  unfold sshSendFile
  rw [agree.permits]
  cases permitted : fs.permits (some dir) file with
  | false => rfl
  | true => rw [agree.fstatat file permitted, agree.openat file permitted]

theorem pkgSshserveLine_agree (agree : fs.AgreeWithin dir fs') (line : List Char) :
    pkgSshserveLine (some dir) fs' line = pkgSshserveLine (some dir) fs line := by
  simp only [pkgSshserveLine, sshSendFile_agree agree]

theorem sshSendFile_reply (file : List Char) (mtime : Int) :
    SshReply restricted fs (sshSendFile restricted fs file mtime) := by
  unfold sshSendFile
  cases permitted : fs.permits restricted file with
  | false => exact .refusal _ (by decide)
  | true =>
      rw [Bool.not_true, if_neg Bool.false_ne_true]
      cases found : fs.fstatat file with
      | none => exact .refusal _ (by decide)
      | some st =>
          dsimp only
          cases regular : st.isRegular with
          | false => exact .refusal _ (by decide)
          | true =>
              rw [Bool.not_true, if_neg Bool.false_ne_true]
              split
              · exact .upToDate
              · cases opened : fs.openat file with
                | none => exact .refusal _ (by decide)
                | some content => exact .file permitted found regular opened

/-- What is taken of a line holds nothing else. -/
theorem sshArguments_subset {command file age : List Char}
    (taken : sshArguments command = some (file, age)) : age ⊆ command := by
  cases command with
  | nil => cases taken
  | cons c rest =>
      simp only [sshArguments] at taken
      have inside : (if c = '/' then rest else c :: rest) ⊆ c :: rest := by
        split
        · exact List.subset_cons_self ..
        · exact List.Subset.refl _
      split at taken
      · cases taken
      · next blank tail split =>
          cases taken
          refine List.Subset.trans ?_ inside
          refine List.Subset.trans (List.dropWhile_suffix _).subset ?_
          refine List.Subset.trans (List.subset_cons_self blank tail) ?_
          exact split ▸ (List.dropWhile_suffix _).subset

theorem strtonum_error {s : List Char} {min max : Int} {errstr : String}
    (failed : strtonum s min max = .error errstr) :
    errstr = "invalid" ∨ errstr = "too small" ∨ errstr = "too large" := by
  unfold strtonum at failed
  grind

theorem newline_notMem_append {s t : List Char} :
    '\n' ∉ s ++ t ↔ '\n' ∉ s ∧ '\n' ∉ t := by
  rw [List.mem_append, not_or]

theorem pkgSshserveLine_reply {line reply : List Char} (oneLine : '\n' ∉ chomp line)
    (served : pkgSshserveLine restricted fs line = some reply) : SshReply restricted fs reply := by
  have text : '\n' ∉ uptoNul (chomp line) :=
    fun member => oneLine ((List.takeWhile_prefix _).subset member)
  simp only [pkgSshserveLine] at served
  split at served
  · cases served
  split at served
  · cases served
    refine .refusal _ ?_
    rw [newline_notMem_append, newline_notMem_append]
    exact ⟨⟨by decide, text⟩, by decide⟩
  cases arguments : sshArguments ((uptoNul (chomp line)).drop 4) with
  | none =>
      rw [arguments] at served
      cases served
      exact .refusal _ (by decide)
  | some found =>
      obtain ⟨file, age⟩ := found
      rw [arguments] at served
      have ageText : '\n' ∉ age :=
        fun member => text ((List.drop_subset ..) (sshArguments_subset arguments member))
      cases number : strtonum age 0 longMax with
      | error errstr =>
          simp only [number, Option.some.injEq] at served
          subst served
          refine .refusal _ ?_
          rw [newline_notMem_append, newline_notMem_append, newline_notMem_append]
          refine ⟨⟨⟨by decide, ageText⟩, by decide⟩, ?_⟩
          have cases := strtonum_error number
          rcases cases with rfl | rfl | rfl <;> decide
      | ok mtime =>
          simp only [number, Option.some.injEq] at served
          subst served
          exact sshSendFile_reply file mtime

end Replies

/-! ## The whole of the output -/

/-- The line ends the session. -/
def isQuit (line : List Char) : Bool := uptoNul (chomp line) = "quit".toList

theorem getlines_body {file line : List Char} (member : line ∈ getlines file) :
    ∃ body, '\n' ∉ body ∧ (line = body ++ ['\n'] ∨ line = body) := by
  induction file generalizing line with
  | nil => cases member
  | cons c rest ih =>
      rw [getlines] at member
      by_cases newline : c = '\n'
      · rw [if_pos newline, List.mem_cons] at member
        rcases member with rfl | later
        · exact ⟨[], List.not_mem_nil, Or.inl (by rw [newline]; rfl)⟩
        · exact ih later
      · rw [if_neg newline] at member
        cases lines : getlines rest with
        | nil =>
            rw [lines] at member
            refine ⟨[c], ?_, Or.inr (List.mem_singleton.mp member)⟩
            rw [List.mem_singleton]
            exact Ne.symm newline
        | cons first others =>
            rw [lines] at member ih
            rcases List.mem_cons.mp member with rfl | later
            · obtain ⟨body, oneLine, ends⟩ := ih (List.mem_cons_self ..)
              refine ⟨c :: body, ?_, ends.imp (congrArg (c :: ·)) (congrArg (c :: ·))⟩
              rw [List.mem_cons, not_or]
              exact ⟨Ne.symm newline, oneLine⟩
            · exact ih (List.mem_cons_of_mem _ later)

theorem chomp_newline (body : List Char) : chomp (body ++ ['\n']) = body := by
  rw [chomp, if_pos List.getLast?_concat, List.dropLast_concat]

theorem chomp_eq {body : List Char} (oneLine : '\n' ∉ body) : chomp body = body := by
  rw [chomp, if_neg fun last => oneLine (List.mem_of_getLast? last)]

theorem newline_notMem_chomp {file line : List Char} (member : line ∈ getlines file) :
    '\n' ∉ chomp line := by
  obtain ⟨body, oneLine, rfl | rfl⟩ := getlines_body member
  · rwa [chomp_newline]
  · rwa [chomp_eq oneLine]

theorem pkgSshserveLine_eq_none_iff {restricted : Option (List Char)} {fs : ServerFiles}
    {line : List Char} : pkgSshserveLine restricted fs line = none ↔ isQuit line = true := by
  rw [isQuit, decide_eq_true_iff]
  by_cases quit : uptoNul (chomp line) = "quit".toList
  · exact iff_of_true (by simp only [pkgSshserveLine, if_pos quit]) quit
  · refine iff_of_false ?_ quit
    simp only [pkgSshserveLine, if_neg quit]
    split
    · exact Option.some_ne_none _
    · split
      · exact Option.some_ne_none _
      · split <;> exact Option.some_ne_none _

section Output

variable {restricted : Option (List Char)} {fs fs' : Nat → ServerFiles} {dir : List Char}

theorem sshServeLines_agree (agree : ∀ n, (fs n).AgreeWithin dir (fs' n)) (n : Nat)
    (lines : List (List Char)) :
    sshServeLines (some dir) fs' n lines = sshServeLines (some dir) fs n lines := by
  induction lines generalizing n with
  | nil => rfl
  | cons line rest ih => simp only [sshServeLines, pkgSshserveLine_agree (agree n), ih]

theorem sshServeLines_replies {lines : List (List Char)}
    (oneLine : ∀ line ∈ lines, '\n' ∉ chomp line) (n : Nat) :
    ∃ replies : List (List Char), sshServeLines restricted fs n lines = replies.flatten ∧
      replies.length = (lines.takeWhile (!isQuit ·)).length ∧
      ∀ k reply, replies[k]? = some reply → SshReply restricted (fs (n + k)) reply := by
  induction lines generalizing n with
  | nil => exact ⟨[], rfl, rfl, nofun⟩
  | cons line rest ih =>
      obtain ⟨first, later⟩ := List.forall_mem_cons.mp oneLine
      rw [sshServeLines]
      cases served : pkgSshserveLine restricted (fs n) line with
      | none =>
          refine ⟨[], rfl, ?_, nofun⟩
          rw [List.takeWhile_cons_of_neg (by simp [pkgSshserveLine_eq_none_iff.mp served])]
      | some reply =>
          obtain ⟨replies, text, count, each⟩ := ih later (n + 1)
          have goesOn : isQuit line = false := by
            rw [← Bool.not_eq_true, ← @pkgSshserveLine_eq_none_iff restricted (fs n), served]
            exact Option.some_ne_none _
          refine ⟨reply :: replies, ?_, ?_, ?_⟩
          · rw [List.flatten_cons, ← text]
          · rw [List.takeWhile_cons_of_pos (by rw [goesOn]; rfl), List.length_cons,
              List.length_cons, count]
          · intro k other place
            cases k with
            | zero =>
                cases place
                exact pkgSshserveLine_reply first served
            | succ k =>
                rw [← Nat.add_assoc, Nat.add_right_comm]
                exact each k other place

end Output

end Pkgng
