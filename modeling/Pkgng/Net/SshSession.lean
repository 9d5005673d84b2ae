import Pkgng.Lib.Pipe
import Pkgng.Lib.Runs
import Pkgng.Net.SshServe

/-!
# Downloads over one ssh connection

The calls of `pkg_fetch_file_to_fd` for a repository with the scheme `ssh` share a connection to a
`pkg_sshserve` at its other end.  Both write and read pieces of any length, in any order.  As long
as no call gives up while there is more to come, each gets what the server has for it, the next call
finds the stream empty, and the two never wait for each other.
-/

set_option autoImplicit false

namespace Pkgng

open Lib

/-! ## The client -/

/-- What `fetchParseURL` and the caller put into the url. -/
structure SshRequest where
  doc : List Char
  imsTime : Int

/-- What `pkg_fetch_file_to_fd` returns. -/
inductive FetchCode
  | ok
  | fatal
  | upToDate
deriving DecidableEq, Repr

/-- `%jd`. -/
def intmaxDigits (n : Int) : List Char :=
  if n < 0 then '-' :: Nat.toDigits 10 n.natAbs else Nat.toDigits 10 n.natAbs

/-- The command of `start_ssh`. -/
def SshRequest.command (req : SshRequest) : List Char :=
  "get ".toList ++ req.doc ++ ' ' :: intmaxDigits req.imsTime ++ ['\n']

def startsOk (line : List Char) : Bool := line.take 3 = "ok:".toList

/-- The return code of `start_ssh` and `*sz`, from the line that answers the command. -/
def sshAnswer (line : List Char) : FetchCode × Nat :=
  let line := uptoNul (chomp line)
  if startsOk line then
    match strtonum (line.drop 4) 0 longMax with
    | .error _ => (.fatal, 0)
    | .ok sz => if sz = 0 then (.upToDate, 0) else (.ok, sz.toNat)
  else (.fatal, 0)

/-- Where a call stands: in the `getline` for the greeting, in that for the answer, or in the loop
over the file. -/
inductive SshPhase
  | idle
  | greeting
  | answer
  | body (sz done : Nat)
  | closed
deriving DecidableEq, Repr

/-- The calls, the current one first; what it has written to `dest`; what the finished ones returned
and wrote; and whether `repo->ssh` is set. -/
structure SshClient where
  connected : Bool := false
  phase : SshPhase := .idle
  todo : List SshRequest
  dest : List Char := []
  results : List (FetchCode × List Char) := []

def SshClient.finish (client : SshClient) (code : FetchCode) : SshClient :=
  { client with
    phase := .idle
    todo := client.todo.tail
    dest := []
    results := client.results ++ [(code, client.dest)] }

/-! ## Client, server and the streams between them -/

structure SshSession where
  client : SshClient
  up : Pipe Char := {}
  down : Pipe Char := {}
  running : Bool := false
  served : Nat := 0

inductive SshEvent
  | call
  | readLine
  | readBlock
  | writeFails (written : Nat)
  | timeout
  | close
  | serve
  | carryUp (n : Nat)
  | receiveUp (n : Nat)
  | carryDown (n : Nat)
  | receiveDown (n : Nat)

/-- The buffer of `pkg_fetch_file_to_fd`. -/
def fetchBufferSize : Nat := 10240

namespace SshSession

/-- Up to the first `getline`: a new server, or the command for the one that is there.  The stream
forgets what it has read ahead when it is written to. -/
def call (s : SshSession) : Option SshSession :=
  match s.client.phase, s.client.todo with
  | .idle, req :: _ =>
      if s.client.connected then
        some { s with
          client := { s.client with phase := .answer }
          up := s.up.put req.command
          down := { s.down with buffered := [] } }
      else
        some { s with
          client := { s.client with connected := true, phase := .greeting }
          up := {}
          down := ({} : Pipe Char).put sshGreeting
          running := true }
  | _, _ => none

/-- A `getline` of `start_ssh`, and what follows up to the next read. -/
def readLine (s : SshSession) : Option SshSession :=
  if s.up.unsent = [] then
    (s.down.takeLine '\n').bind fun (line, down) =>
      match s.client.phase, s.client.todo with
      | .greeting, req :: _ =>
          if startsOk line then
            some { s with
              client := { s.client with phase := .answer }
              up := s.up.put req.command
              down }
          else
            -- `ssh_close` waits until the server is gone
            some { s with
              client := { s.client.finish .fatal with connected := false }
              up := {}
              down := {}
              running := false }
      | .answer, _ =>
          match sshAnswer line with
          | (.ok, sz) => some { s with client := { s.client with phase := .body sz 0 }, down }
          | (code, _) => some { s with client := s.client.finish code, down }
      | _, _ => none
  else none

/-- The bytes behind `done` are written to `dest`. -/
def advance (s : SshSession) (sz done : Nat) (block : List Char) (down : Pipe Char) : SshSession :=
  let client := { s.client with dest := s.client.dest ++ block }
  if done + block.length < sz then
    { s with client := { client with phase := .body sz (done + block.length) }, down }
  else { s with client := client.finish .ok, down }

/-- One turn of the loop over the file. -/
def readBlock (s : SshSession) : Option SshSession :=
  match s.client.phase with
  | .body sz done =>
      (s.down.takeBlock (min fetchBufferSize (sz - done))).map fun (block, down) =>
        s.advance sz done block down
  | _ => none

/-- One turn of the loop in which `write` takes less than the block. -/
def writeFails (s : SshSession) (written : Nat) : Option SshSession :=
  match s.client.phase with
  | .body sz done =>
      (s.down.takeBlock (min fetchBufferSize (sz - done))).bind fun (block, down) =>
        if written < block.length then
          let client := { s.client with dest := s.client.dest ++ block.take written }
          some { s with client := client.finish .fatal, down }
        else none
  | _ => none

/-- `ssh_read` gives up while the server has nothing more to read; `fread` still returns what came
before. -/
def timeout (s : SshSession) : Option SshSession :=
  match s.client.phase with
  | .greeting =>
      if '\n' ∈ s.down.buffered then none
      else
        some { s with
          client := { s.client.finish .fatal with connected := false }
          up := {}
          down := {}
          running := false }
  | .answer =>
      if '\n' ∈ s.down.buffered then none
      else
        some { s with
          client := s.client.finish .fatal
          down := { s.down with buffered := [] } }
  | .body sz done =>
      if min fetchBufferSize (sz - done) ≤ s.down.buffered.length then none
      else if s.down.buffered = [] then some { s with client := s.client.finish .fatal }
      else
        some (s.advance sz done s.down.buffered { s.down with buffered := [] })
  | _ => none

/-- `ssh_close`, when the repository is freed. -/
def close (s : SshSession) : Option SshSession :=
  match s.client.phase, s.client.todo with
  | .idle, [] =>
      if s.client.connected then
        some { s with
          client := { s.client with phase := .closed }
          up := s.up.put "quit\n".toList }
      else some { s with client := { s.client with phase := .closed } }
  | _, _ => none

/-- One turn of the loop of `pkg_sshserve`, once the last reply is written. -/
def serve (restricted : Option (List Char)) (fs : Nat → ServerFiles) (s : SshSession) :
    Option SshSession :=
  if s.running ∧ s.down.unsent = [] then
    (s.up.takeLine '\n').map fun (line, up) =>
      match pkgSshserveLine restricted (fs s.served) line with
      | none => { s with up, running := false }
      | some reply => { s with up, down := s.down.put reply, served := s.served + 1 }
  else none

def step (restricted : Option (List Char)) (fs : Nat → ServerFiles) (s : SshSession) :
    SshEvent → Option SshSession
  | .call => s.call
  | .readLine => s.readLine
  | .readBlock => s.readBlock
  | .writeFails written => s.writeFails written
  | .timeout => s.timeout
  | .close => s.close
  | .serve => s.serve restricted fs
  | .carryUp n => (s.up.carry n).map fun up => { s with up }
  | .receiveUp n => (s.up.receive n).map fun up => { s with up }
  | .carryDown n => (s.down.carry n).map fun down => { s with down }
  | .receiveDown n => (s.down.receive n).map fun down => { s with down }

def start (reqs : List SshRequest) : SshSession where
  client := { todo := reqs }

/-- The call does not give up while there is more to come: no timeout but one that shortens a block,
no failing `write` but that of the last block. -/
def Undisturbed (s : SshSession) : SshEvent → Prop
  | .timeout => ∃ sz done, s.client.phase = .body sz done ∧ s.down.buffered ≠ []
  | .writeFails _ => ∀ sz done, s.client.phase = .body sz done → sz - done ≤ fetchBufferSize
  | _ => True

end SshSession

/-! ## What the calls are to return -/

/-- The path that the server looks up. -/
def sshFile : List Char → List Char
  | [] => []
  | c :: rest => if c = '/' then rest else c :: rest

/-- What the server has for a request. -/
def sshOutcome (restricted : Option (List Char)) (fs : ServerFiles) (req : SshRequest) :
    FetchCode × List Char :=
  let file := sshFile req.doc
  if !fs.permits restricted file then (.fatal, [])
  else
    match fs.fstatat file with
    | none => (.fatal, [])
    | some st =>
        if !st.isRegular then (.fatal, [])
        else if st.mtime ≤ req.imsTime then (.upToDate, [])
        else
          match fs.openat file with
          | none => (.fatal, [])
          | some content => if st.size = 0 then (.upToDate, []) else (.ok, content)

/-- The document of an url has no blanks, and the time is one of a file. -/
structure SshRequest.WellFormed (req : SshRequest) : Prop where
  solid : ∀ c ∈ req.doc, isspace c = false ∧ c ≠ '\x00'
  since : 0 ≤ req.imsTime
  fits : req.imsTime ≤ longMax

/-- Files do not change while they are read. -/
def ServerFiles.Stable (fs : ServerFiles) : Prop :=
  ∀ file st content, fs.fstatat file = some st → fs.openat file = some content →
    content.length = st.size

/-! ## A command and its reply -/

section Reply

variable {restricted : Option (List Char)} {fs : ServerFiles} {req : SshRequest}

theorem isDigit_intmaxDigits {n : Int} (since : 0 ≤ n) {c : Char} (member : c ∈ intmaxDigits n) :
    c.isDigit = true := by
  rw [intmaxDigits, if_neg (by omega)] at member
  exact Nat.isDigit_of_mem_toDigits (by decide) (by decide) member

theorem not_isspace_of_isDigit {c : Char} (digit : c.isDigit = true) : isspace c = false := by
  by_contra spacing
  simp only [isspace, Bool.not_eq_false, Bool.or_eq_true, decide_eq_true_eq] at spacing
  rcases spacing with ((((rfl | rfl) | rfl) | rfl) | rfl) | rfl <;> cases digit

theorem strtonum_intmaxDigits {n : Int} (since : 0 ≤ n) (fits : n ≤ longMax) :
    strtonum (intmaxDigits n) 0 longMax = .ok n := by
  rw [intmaxDigits, if_neg (by omega), strtonum_toDigits (by omega), Int.natAbs_of_nonneg since]

theorem sshArguments_command (polite : req.WellFormed) :
    sshArguments (req.doc ++ ' ' :: intmaxDigits req.imsTime) =
      some (sshFile req.doc, intmaxDigits req.imsTime) := by
  have digits : (intmaxDigits req.imsTime).dropWhile isspace = intmaxDigits req.imsTime := by
    rw [List.dropWhile_eq_self_iff]
    intro positive
    rw [not_isspace_of_isDigit (isDigit_intmaxDigits polite.since (List.getElem_mem ..))]
    exact Bool.false_ne_true
  have split : ∀ file : List Char, (∀ c ∈ file, isspace c = false) →
      (file ++ ' ' :: intmaxDigits req.imsTime).dropWhile (!isspace ·) =
          ' ' :: intmaxDigits req.imsTime ∧
        (file ++ ' ' :: intmaxDigits req.imsTime).takeWhile (!isspace ·) = file := by
    intro file solid
    have through : ∀ c ∈ file, (!isspace c) = true := fun c member => by rw [solid c member]; rfl
    rw [List.dropWhile_append_of_pos through, List.takeWhile_append_of_pos through]
    exact ⟨rfl, List.append_nil file⟩
  have solid := fun c member => (polite.solid c member).1
  cases doc : req.doc with
  | nil => simp [sshArguments, sshFile, isspace, digits]
  | cons c rest =>
      rw [doc] at solid
      have file : (if c = '/' then rest ++ ' ' :: intmaxDigits req.imsTime
          else c :: (rest ++ ' ' :: intmaxDigits req.imsTime)) =
          sshFile (c :: rest) ++ ' ' :: intmaxDigits req.imsTime := by
        rw [sshFile]
        split <;> rfl
      have inside : ∀ d ∈ sshFile (c :: rest), isspace d = false := by
        intro d member
        refine solid d ?_
        rw [sshFile] at member
        split at member
        · exact List.mem_cons_of_mem _ member
        · exact member
      simp only [List.cons_append, sshArguments, file, (split _ inside).1, (split _ inside).2, digits]

/-- The command without its newline. -/
def SshRequest.text (req : SshRequest) : List Char :=
  "get ".toList ++ req.doc ++ ' ' :: intmaxDigits req.imsTime

theorem SshRequest.command_eq (req : SshRequest) : req.command = req.text ++ ['\n'] := rfl

theorem SshRequest.WellFormed.text_plain (polite : req.WellFormed) :
    '\n' ∉ req.text ∧ '\x00' ∉ req.text := by
  have digit : ∀ c ∈ intmaxDigits req.imsTime, c.isDigit = true :=
    fun c member => isDigit_intmaxDigits polite.since member
  constructor
  · intro member
    rw [SshRequest.text, List.mem_append, List.mem_append, List.mem_cons] at member
    rcases member with (inGet | inDoc) | blank | inAge
    · revert inGet
      decide
    · cases (polite.solid _ inDoc).1
    · revert blank
      decide
    · cases digit _ inAge
  · intro member
    rw [SshRequest.text, List.mem_append, List.mem_append, List.mem_cons] at member
    rcases member with (inGet | inDoc) | blank | inAge
    · revert inGet
      decide
    · exact (polite.solid _ inDoc).2 rfl
    · revert blank
      decide
    · cases digit _ inAge

/-- The server understands a command. -/
theorem pkgSshserveLine_command (polite : req.WellFormed) :
    pkgSshserveLine restricted fs req.command =
      some (sshSendFile restricted fs (sshFile req.doc) req.imsTime) := by
  have line : uptoNul (chomp req.command) = req.text := by
    rw [req.command_eq, chomp_newline, uptoNul_eq polite.text_plain.2]
  have head : req.text = 'g' :: 'e' :: 't' :: ' ' ::
      (req.doc ++ ' ' :: intmaxDigits req.imsTime) := by
    simp [SshRequest.text]
  have notQuit : req.text ≠ "quit".toList := by
    rw [head]
    exact fun same => absurd (List.cons.inj same).1 (by decide)
  have isGet : req.text.take 4 = "get ".toList := by
    rw [head]
    rfl
  have behind : req.text.drop 4 = req.doc ++ ' ' :: intmaxDigits req.imsTime := by
    rw [head]
    rfl
  simp only [pkgSshserveLine, line, if_neg notQuit, isGet, ne_eq, not_true_eq_false, if_false,
    behind, sshArguments_command polite, strtonum_intmaxDigits polite.since polite.fits]

theorem sshAnswer_ko (message : List Char) :
    sshAnswer ("ko: ".toList ++ message ++ ['\n']) = (.fatal, 0) := by
  have refused : startsOk (uptoNul ("ko: ".toList ++ message)) = false := by
    simp [startsOk, uptoNul]
  simp only [sshAnswer, chomp_newline, refused, Bool.false_eq_true, if_false]

theorem sshAnswer_size {size : Nat} (fits : size ≤ longMax) :
    sshAnswer ("ok: ".toList ++ Nat.toDigits 10 size ++ ['\n']) =
      if size = 0 then (.upToDate, 0) else (.ok, size) := by
  have noNul : '\x00' ∉ "ok: ".toList ++ Nat.toDigits 10 size := by
    rw [List.mem_append, not_or]
    refine ⟨by decide, fun member => ?_⟩
    cases Nat.isDigit_of_mem_toDigits (by decide) (by decide) member
  have behind : ("ok: ".toList ++ Nat.toDigits 10 size).drop 4 = Nat.toDigits 10 size := rfl
  have isOk : startsOk ("ok: ".toList ++ Nat.toDigits 10 size) = true := rfl
  simp only [sshAnswer, chomp_newline, uptoNul_eq noNul, isOk, behind, strtonum_toDigits fits,
    if_true, Int.toNat_natCast]
  norm_cast

/-- A reply is a line that `start_ssh` understands, and the file if there is one. -/
structure SshReplied (reply : List Char) (outcome : FetchCode × List Char) (header : List Char)
    (content : List Char) : Prop where
  text : reply = header ++ '\n' :: content
  oneLine : '\n' ∉ header
  answer : (sshAnswer (header ++ ['\n'])).1 = outcome.1
  written : outcome.2 = content
  loading : outcome.1 = .ok → (sshAnswer (header ++ ['\n'])).2 = content.length ∧ content ≠ []
  refused : outcome.1 ≠ .ok → content = []

theorem SshReplied.ko {message : List Char} (oneLine : '\n' ∉ message) :
    SshReplied (sshKo message) (.fatal, []) ("ko: ".toList ++ message) [] where
  text := rfl
  oneLine := by
    rw [List.mem_append, not_or]
    exact ⟨by decide, oneLine⟩
  answer := by rw [sshAnswer_ko]
  written := rfl
  loading := nofun
  refused := fun _ => rfl

theorem newline_notMem_size (size : Nat) : '\n' ∉ "ok: ".toList ++ Nat.toDigits 10 size := by
  rw [List.mem_append, not_or]
  refine ⟨by decide, fun member => ?_⟩
  cases Nat.isDigit_of_mem_toDigits (by decide) (by decide) member

/-- What the server sends is what it has. -/
theorem sshSendFile_replied (stable : fs.Stable) :
    ∃ header content, SshReplied (sshSendFile restricted fs (sshFile req.doc) req.imsTime)
      (sshOutcome restricted fs req) header content := by
  unfold sshSendFile sshOutcome
  dsimp only
  cases permitted : fs.permits restricted (sshFile req.doc) with
  | false => exact ⟨_, _, .ko (by decide)⟩
  | true =>
      rw [Bool.not_true, if_neg Bool.false_ne_true, if_neg Bool.false_ne_true]
      cases found : fs.fstatat (sshFile req.doc) with
      | none => exact ⟨_, _, .ko (by decide)⟩
      | some st =>
          dsimp only
          cases regular : st.isRegular with
          | false => exact ⟨_, _, .ko (by decide)⟩
          | true =>
              rw [Bool.not_true, if_neg Bool.false_ne_true, if_neg Bool.false_ne_true]
              by_cases old : st.mtime ≤ req.imsTime
              · rw [if_pos old, if_pos old]
                exact ⟨"ok: 0".toList, [], rfl, by decide, by decide, rfl, nofun, fun _ => rfl⟩
              · rw [if_neg old, if_neg old]
                cases opened : fs.openat (sshFile req.doc) with
                | none => exact ⟨_, _, .ko (by decide)⟩
                | some content =>
                    have size := stable _ st content found opened
                    have answer := sshAnswer_size st.fits
                    refine ⟨"ok: ".toList ++ Nat.toDigits 10 st.size, content, ?_⟩
                    dsimp only
                    by_cases empty : st.size = 0
                    · rw [if_pos empty] at answer ⊢
                      have nothing := List.length_eq_zero_iff.mp (size.trans empty)
                      exact ⟨by simp [sshOk], newline_notMem_size _, by rw [answer], nothing.symm,
                        nofun, fun _ => nothing⟩
                    · rw [if_neg empty] at answer ⊢
                      refine ⟨by simp [sshOk], newline_notMem_size _, by rw [answer], rfl,
                        fun _ => ⟨by rw [answer, size], fun nothing => ?_⟩, fun failed => ?_⟩
                      · rw [nothing] at size
                        exact empty size.symm
                      · exact absurd rfl failed

end Reply

/-! ## In step with each other -/

/-- A call returns what the server had for it, or fails with a part of that. -/
def SshAnswered (outcome result : FetchCode × List Char) : Prop :=
  result = outcome ∨ outcome.1 = .ok ∧ result.1 = .fatal ∧ result.2 <+: outcome.2

/-- What is in the streams of a running connection, and how many lines were served. -/
structure SshSession.Wired (s : SshSession) (up down : List Char) (served : Nat) : Prop where
  connected : s.client.connected = true
  running : s.running = true
  up : s.up.bytes = up
  down : s.down.bytes = down
  served : s.served = served

section Session

variable (restricted : Option (List Char)) (fs : Nat → ServerFiles) (reqs : List SshRequest)

/-- The reply to a request that is served as the `n`-th. -/
def sshReply (n : Nat) (req : SshRequest) : List Char :=
  sshSendFile restricted (fs n) (sshFile req.doc) req.imsTime

/-- Where the two can be while they are in step. -/
inductive SshPlace (s : SshSession) : Prop
  | fresh (phase : s.client.phase = .idle) (unconnected : s.client.connected = false)
      (stopped : s.running = false) (up : s.up.bytes = []) (down : s.down.bytes = [])
      (served : s.served = s.client.results.length)
  | greeting (req : SshRequest) (rest : List SshRequest) (phase : s.client.phase = .greeting)
      (todo : s.client.todo = req :: rest)
      (wired : s.Wired [] sshGreeting s.client.results.length)
  | between (phase : s.client.phase = .idle) (wired : s.Wired [] [] s.client.results.length)
  | asked (req : SshRequest) (rest : List SshRequest) (phase : s.client.phase = .answer)
      (todo : s.client.todo = req :: rest)
      (wired : s.Wired req.command [] s.client.results.length)
  | answered (req : SshRequest) (rest : List SshRequest) (phase : s.client.phase = .answer)
      (todo : s.client.todo = req :: rest)
      (wired : s.Wired [] (sshReply restricted fs s.client.results.length req)
        (s.client.results.length + 1))
  | loading (req : SshRequest) (rest : List SshRequest) (content : List Char) (done : Nat)
      (phase : s.client.phase = .body content.length done) (todo : s.client.todo = req :: rest)
      (outcome : sshOutcome restricted (fs s.client.results.length) req = (.ok, content))
      (wired : s.Wired [] (content.drop done) (s.client.results.length + 1))
      (dest : s.client.dest = content.take done) (more : done < content.length)
  | closing (phase : s.client.phase = .closed) (todo : s.client.todo = []) (served : Nat)
      (wired : s.Wired "quit\n".toList [] served)
  | ended (phase : s.client.phase = .closed) (todo : s.client.todo = [])
      (stopped : s.running = false) (up : s.up.bytes = []) (down : s.down.bytes = [])

/-- The invariant of a session. -/
structure SshSession.Synced (s : SshSession) : Prop where
  todo : s.client.todo = reqs.drop s.client.results.length
  answered : ∀ n result, s.client.results[n]? = some result →
    ∃ req, reqs[n]? = some req ∧ SshAnswered (sshOutcome restricted (fs n) req) result
  dest : (∀ sz done, s.client.phase ≠ .body sz done) → s.client.dest = []
  place : SshPlace restricted fs s

/-- The steps that the requests still need, each served as the one of its number. -/
def sshCosts : Nat → List SshRequest → Nat
  | _, [] => 0
  | n, req :: rest =>
      2 * req.command.length + 3 * (sshReply restricted fs n req).length + 3 +
        sshCosts (n + 1) rest

/-- A bound on the steps of a session that is in step. -/
def SshSession.left (s : SshSession) : Nat :=
  let n := s.client.results.length
  s.up.moves + s.down.moves +
    match s.client.phase, s.client.todo with
    | .idle, todo =>
        sshCosts restricted fs n todo + 12 +
          if s.client.connected then 0 else 2 * sshGreeting.length + 1
    | .greeting, todo => sshCosts restricted fs n todo + 12
    | .answer, [] => 0
    | .answer, req :: rest =>
        let reply := (sshReply restricted fs n req).length
        sshCosts restricted fs (n + 1) rest + 12 +
          if s.served = n then 3 * reply + 2 else reply + 1
    | .body sz done, todo => sshCosts restricted fs (n + 1) todo.tail + 12 + (sz - done)
    | .closed, _ => if s.running then 1 else 0

variable {restricted fs reqs} {s s' : SshSession}

/-- Only what is in the streams matters, not how far it has come. -/
theorem SshPlace.of_bytes (place : SshPlace restricted fs s) (client : s'.client = s.client)
    (running : s'.running = s.running) (served : s'.served = s.served)
    (up : s'.up.bytes = s.up.bytes) (down : s'.down.bytes = s.down.bytes) :
    SshPlace restricted fs s' := by
  have wires : ∀ {upText downText count}, s.Wired upText downText count →
      s'.Wired upText downText count := fun wired =>
    ⟨by rw [client, wired.connected], by rw [running, wired.running], by rw [up, wired.up],
      by rw [down, wired.down], by rw [served, wired.served]⟩
  cases place with
  | fresh phase unconnected stopped upEmpty downEmpty count =>
      exact .fresh (by rw [client, phase]) (by rw [client, unconnected]) (by rw [running, stopped])
        (by rw [up, upEmpty]) (by rw [down, downEmpty]) (by rw [served, client, count])
  | greeting req rest phase todo wired =>
      exact .greeting req rest (by rw [client, phase]) (by rw [client, todo])
        (by rw [client]; exact wires wired)
  | between phase wired =>
      exact .between (by rw [client, phase]) (by rw [client]; exact wires wired)
  | asked req rest phase todo wired =>
      exact .asked req rest (by rw [client, phase]) (by rw [client, todo])
        (by rw [client]; exact wires wired)
  | answered req rest phase todo wired =>
      exact .answered req rest (by rw [client, phase]) (by rw [client, todo])
        (by rw [client]; exact wires wired)
  | loading req rest content done phase todo outcome wired dest more =>
      exact .loading req rest content done (by rw [client, phase]) (by rw [client, todo])
        (by rw [client, outcome]) (by rw [client]; exact wires wired) (by rw [client, dest]) more
  | closing phase todo count wired =>
      exact .closing (by rw [client, phase]) (by rw [client, todo]) count (wires wired)
  | ended phase todo stopped upEmpty downEmpty =>
      exact .ended (by rw [client, phase]) (by rw [client, todo]) (by rw [running, stopped])
        (by rw [up, upEmpty]) (by rw [down, downEmpty])

theorem SshSession.Synced.move (synced : s.Synced restricted fs reqs) {up down : Pipe Char}
    (upBytes : up.bytes = s.up.bytes) (downBytes : down.bytes = s.down.bytes)
    (fewer : up.moves + down.moves < s.up.moves + s.down.moves) :
    ({ s with up, down } : SshSession).Synced restricted fs reqs ∧
      ({ s with up, down } : SshSession).left restricted fs < s.left restricted fs := by
  refine ⟨⟨synced.todo, synced.answered, synced.dest,
    synced.place.of_bytes rfl rfl rfl upBytes downBytes⟩, ?_⟩
  unfold SshSession.left
  dsimp only
  exact Nat.add_lt_add_right fewer _

theorem sshCosts_cons (n : Nat) (req : SshRequest) (rest : List SshRequest) :
    sshCosts restricted fs n (req :: rest) = 2 * req.command.length +
      3 * (sshReply restricted fs n req).length + 3 + sshCosts restricted fs (n + 1) rest := rfl

/-- The call returns, and both streams are empty. -/
theorem SshSession.Synced.finished (synced : s.Synced restricted fs reqs) {req : SshRequest}
    {rest : List SshRequest} (todo : s.client.todo = req :: rest) {code : FetchCode}
    {dest : List Char} (client : s'.client = { s.client with dest }.finish code)
    (result : SshAnswered (sshOutcome restricted (fs s.client.results.length) req) (code, dest))
    (wired : s'.Wired [] [] (s.client.results.length + 1)) :
    s'.Synced restricted fs reqs ∧ s'.left restricted fs = s'.up.moves + s'.down.moves +
      (sshCosts restricted fs (s.client.results.length + 1) rest + 12) := by
  have counted : s'.client.results.length = s.client.results.length + 1 := by
    rw [client]
    exact List.length_append ..
  have drops : reqs.drop s.client.results.length = req :: rest := synced.todo.symm.trans todo
  have current : reqs[s.client.results.length]? = some req := by
    rw [← List.head?_drop, drops]
    rfl
  have others : s'.client.todo = rest := by
    rw [client]
    exact congrArg List.tail todo
  refine ⟨⟨?_, ?_, fun _ => by rw [client]; rfl, .between (by rw [client]; rfl) ?_⟩, ?_⟩
  · rw [others, counted, ← List.drop_drop, drops]
    rfl
  · intro n other place
    have results : s'.client.results = s.client.results ++ [(code, dest)] := by rw [client]; rfl
    rw [results] at place
    rcases Nat.lt_trichotomy n s.client.results.length with before | rfl | after
    · rw [List.getElem?_append_left before] at place
      exact synced.answered n other place
    · rw [List.getElem?_concat_length] at place
      cases place
      exact ⟨req, current, result⟩
    · rw [List.getElem?_eq_none (by rw [List.length_append]; exact after)] at place
      cases place
  · rw [counted]
    exact wired
  · have phase : s'.client.phase = .idle := by rw [client]; rfl
    rw [SshSession.left, phase, others, counted]
    dsimp only
    rw [wired.connected, if_pos rfl, Nat.add_zero]

theorem SshSession.Synced.call (synced : s.Synced restricted fs reqs) (moved : s.call = some s') :
    s'.Synced restricted fs reqs ∧ s'.left restricted fs < s.left restricted fs := by
  unfold SshSession.call at moved
  split at moved
  next req rest phase todo =>
    have dest := synced.dest fun sz done => by rw [phase]; exact fun same => by cases same
    split at moved
    next connected =>
      cases moved
      cases synced.place with
      | fresh _ unconnected => rw [connected] at unconnected; cases unconnected
      | between _ wired =>
          have forgotten := Pipe.bytes_forget (Pipe.bytes_eq_nil.mp wired.down).1
          refine ⟨⟨synced.todo, synced.answered, fun _ => dest,
            .asked req rest rfl todo ⟨connected, wired.running, ?_, ?_, wired.served⟩⟩, ?_⟩
          · rw [Pipe.bytes_put, wired.up, List.nil_append]
          · rw [forgotten, wired.down]
          · rw [SshSession.left, SshSession.left, phase, todo]
            dsimp only
            rw [forgotten, Pipe.moves_put, wired.served, if_pos rfl, connected, if_pos rfl,
              sshCosts_cons]
            omega
      | _ => simp_all
    next unconnected =>
      cases moved
      cases synced.place with
      | fresh _ _ _ up down served =>
          refine ⟨⟨synced.todo, synced.answered, fun _ => dest,
            .greeting req rest rfl todo ⟨rfl, rfl, rfl, rfl, served⟩⟩, ?_⟩
          rw [SshSession.left, SshSession.left, phase, todo]
          dsimp only
          rw [if_neg unconnected, Pipe.moves_put, Pipe.moves_empty]
          omega
      | between _ wired => exact absurd wired.connected unconnected
      | _ => simp_all
  · cases moved

theorem SshSession.Synced.close (synced : s.Synced restricted fs reqs)
    (moved : s.close = some s') :
    s'.Synced restricted fs reqs ∧ s'.left restricted fs < s.left restricted fs := by
  unfold SshSession.close at moved
  split at moved
  next phase todo =>
    have dest := synced.dest fun sz done => by rw [phase]; exact fun same => by cases same
    split at moved
    next connected =>
      cases moved
      cases synced.place with
      | fresh _ unconnected => rw [connected] at unconnected; cases unconnected
      | between _ wired =>
          refine ⟨⟨synced.todo, synced.answered, fun _ => dest,
            .closing rfl todo _ ⟨connected, wired.running, ?_, wired.down, wired.served⟩⟩, ?_⟩
          · rw [Pipe.bytes_put, wired.up, List.nil_append]
          · rw [SshSession.left, SshSession.left, phase]
            dsimp only
            rw [Pipe.moves_put, wired.running, if_pos rfl]
            have length : "quit\n".toList.length = 5 := rfl
            omega
      | _ => simp_all
    next unconnected =>
      cases moved
      cases synced.place with
      | fresh _ _ stopped up down =>
          refine ⟨⟨synced.todo, synced.answered, fun _ => dest,
            .ended rfl todo stopped up down⟩, ?_⟩
          rw [SshSession.left, SshSession.left, phase]
          dsimp only
          rw [stopped, if_neg Bool.false_ne_true]
          omega
      | between _ wired => exact absurd wired.connected unconnected
      | _ => simp_all
  · cases moved

theorem newline_notMem_greeting : '\n' ∉ "ok: pkg ".toList ++ PKGVERSION := by decide

/-- The greeting or an answer is read. -/
theorem SshSession.Synced.readLine (synced : s.Synced restricted fs reqs)
    (stable : ∀ n, (fs n).Stable) (moved : s.readLine = some s') :
    s'.Synced restricted fs reqs ∧ s'.left restricted fs < s.left restricted fs := by
  obtain ⟨flushed, moved⟩ := Option.ite_none_right_eq_some.mp moved
  obtain ⟨⟨line, down⟩, took, moved⟩ := Option.bind_eq_some_iff.mp moved
  dsimp only at moved
  have dest : (∃ sz done, s.client.phase = .body sz done) ∨ s.client.dest = [] := by
    by_cases loading : ∃ sz done, s.client.phase = .body sz done
    · exact Or.inl loading
    · exact Or.inr (synced.dest fun sz done phase => loading ⟨sz, done, phase⟩)
  cases synced.place with
  | greeting req rest phase todo wired =>
      obtain ⟨rfl, behind, moves, _⟩ := Pipe.takeLine_spec newline_notMem_greeting
        (show s.down.bytes = ("ok: pkg ".toList ++ PKGVERSION) ++ '\n' :: [] by
          rw [wired.down]; rfl) took
      rw [phase, todo] at moved
      cases moved
      have dest := dest.resolve_left (by rw [phase]; rintro ⟨_, _, same⟩; cases same)
      refine ⟨⟨todo.symm.trans synced.todo, synced.answered, fun _ => dest,
        .asked req rest rfl rfl ⟨wired.connected, wired.running, ?_, behind, wired.served⟩⟩, ?_⟩
      · rw [Pipe.bytes_put, wired.up, List.nil_append]
      · rw [SshSession.left, SshSession.left, phase, todo]
        dsimp only
        rw [Pipe.moves_put, moves, wired.served, if_pos rfl, sshCosts_cons]
        omega
  | asked req rest phase todo wired =>
      have nothing := (Pipe.bytes_eq_nil.mp wired.down).1
      rw [Pipe.takeLine, nothing, if_neg List.not_mem_nil] at took
      cases took
  | answered req rest phase todo wired =>
      have dest := dest.resolve_left (by rw [phase]; rintro ⟨_, _, same⟩; cases same)
      obtain ⟨header, content, replied⟩ := @sshSendFile_replied restricted
        (fs s.client.results.length) req (stable _)
      have reply : sshReply restricted fs s.client.results.length req =
          header ++ '\n' :: content := replied.text
      obtain ⟨rfl, behind, moves, _⟩ := Pipe.takeLine_spec replied.oneLine
        (by rw [wired.down, reply]) took
      have length := congrArg List.length reply
      rw [List.length_append, List.length_cons] at length
      rw [phase] at moved
      have before : s.left restricted fs = s.up.moves + s.down.moves +
          (sshCosts restricted fs (s.client.results.length + 1) rest + 12 +
            ((sshReply restricted fs s.client.results.length req).length + 1)) := by
        rw [SshSession.left, phase, todo]
        dsimp only
        rw [wired.served, if_neg (Nat.succ_ne_self _)]
      cases answer : sshAnswer (header ++ ['\n']) with
      | mk code sz =>
          rw [answer] at moved
          have outcome := replied.answer
          rw [answer] at outcome
          dsimp only at outcome
          by_cases success : code = .ok
          · subst success
            cases moved
            obtain ⟨size, some⟩ := replied.loading outcome.symm
            rw [answer] at size
            dsimp only at size
            subst size
            refine ⟨⟨synced.todo, synced.answered, fun other => absurd rfl (other _ _),
              .loading req rest content 0 rfl todo ?_
                ⟨wired.connected, wired.running, wired.up, behind, wired.served⟩ dest
                (List.length_pos_iff.mpr some)⟩, ?_⟩
            · rw [← Prod.eta (sshOutcome restricted (fs s.client.results.length) req), ← outcome,
                replied.written]
            · rw [before, SshSession.left]
              dsimp only
              rw [moves, todo, List.tail_cons]
              omega
          · have failed : sshOutcome restricted (fs s.client.results.length) req = (code, []) := by
              rw [← Prod.eta (sshOutcome restricted (fs s.client.results.length) req), ← outcome,
                replied.written, replied.refused (fun ok => success (outcome.trans ok))]
            have ends : s' = { s with client := s.client.finish code, down } := by
              cases code with
              | ok => exact absurd rfl success
              | fatal | upToDate => exact (Option.some.inj moved).symm
            subst ends
            have nothing := replied.refused fun ok => success (outcome.trans ok)
            have client : ({ s with client := s.client.finish code, down } : SshSession).client =
                ({ s.client with dest := [] } : SshClient).finish code := by rw [← dest]
            obtain ⟨next, count⟩ := synced.finished todo client (Or.inl failed.symm)
              ⟨wired.connected, wired.running, wired.up, by rw [behind, nothing], wired.served⟩
            refine ⟨next, ?_⟩
            rw [count, before]
            dsimp only
            rw [moves]
            omega
  | fresh phase | between phase | loading _ _ _ _ phase | closing phase | ended phase =>
      rw [phase] at moved
      cases moved

/-- The next bytes of the file are written to `dest`. -/
theorem SshSession.Synced.advance (synced : s.Synced restricted fs reqs) {req : SshRequest}
    {rest : List SshRequest} {content block : List Char} {done : Nat} {down : Pipe Char}
    (phase : s.client.phase = .body content.length done) (todo : s.client.todo = req :: rest)
    (outcome : sshOutcome restricted (fs s.client.results.length) req = (.ok, content))
    (wired : s.Wired [] (content.drop done) (s.client.results.length + 1))
    (dest : s.client.dest = content.take done) (more : done < content.length)
    (front : s.down.bytes = block ++ down.bytes) (moves : down.moves = s.down.moves)
    (nonempty : block ≠ []) :
    (s.advance content.length done block down).Synced restricted fs reqs ∧
      (s.advance content.length done block down).left restricted fs < s.left restricted fs := by
  have positive := List.length_pos_iff.mpr nonempty
  have split : content.drop done = block ++ down.bytes := wired.down.symm.trans front
  have length := congrArg List.length split
  rw [List.length_drop, List.length_append] at length
  have written : s.client.dest ++ block = content.take (done + block.length) := by
    rw [dest, List.take_add, split, List.take_left]
  have behind : down.bytes = content.drop (done + block.length) := by
    rw [← List.drop_drop, split, List.drop_left]
  have before : s.left restricted fs = s.up.moves + s.down.moves +
      (sshCosts restricted fs (s.client.results.length + 1) rest + 12 +
        (content.length - done)) := by
    rw [SshSession.left, phase, todo]
    rfl
  unfold SshSession.advance
  dsimp only
  split
  next goesOn =>
    refine ⟨⟨synced.todo, synced.answered, fun other => absurd rfl (other _ _),
      .loading req rest content _ rfl todo outcome
        ⟨wired.connected, wired.running, wired.up, behind, wired.served⟩ written goesOn⟩, ?_⟩
    rw [before, SshSession.left]
    dsimp only
    rw [moves, todo, List.tail_cons]
    omega
  next ends =>
    have whole : s.client.dest ++ block = content := by
      rw [written, List.take_of_length_le (by omega)]
    have nothing : down.bytes = [] := by
      rw [behind, List.drop_of_length_le (by omega)]
    have client : ({ s with
        client := ({ s.client with dest := s.client.dest ++ block } : SshClient).finish .ok
        down } : SshSession).client =
          ({ s.client with dest := s.client.dest ++ block } : SshClient).finish .ok := rfl
    obtain ⟨next, count⟩ := synced.finished todo client (Or.inl (by rw [whole, outcome]))
      ⟨wired.connected, wired.running, wired.up, nothing, wired.served⟩
    refine ⟨next, ?_⟩
    rw [count, before]
    dsimp only
    rw [moves]
    omega

theorem SshSession.Synced.readBlock (synced : s.Synced restricted fs reqs)
    (moved : s.readBlock = some s') :
    s'.Synced restricted fs reqs ∧ s'.left restricted fs < s.left restricted fs := by
  unfold SshSession.readBlock at moved
  cases synced.place with
  | loading req rest content done phase todo outcome wired dest more =>
      rw [phase] at moved
      obtain ⟨⟨block, down⟩, took, rfl⟩ := Option.map_eq_some_iff.mp moved
      obtain ⟨length, front, moves, _⟩ := Pipe.takeBlock_spec took
      refine synced.advance phase todo outcome wired dest more front moves fun nothing => ?_
      rw [nothing, List.length_nil, fetchBufferSize] at length
      omega
  | fresh phase | between phase | closing phase | ended phase | greeting _ _ phase
  | asked _ _ phase | answered _ _ phase =>
      rw [phase] at moved
      cases moved

/-- Where the last block cannot be written the stream is empty all the same. -/
theorem SshSession.Synced.writeFails (synced : s.Synced restricted fs reqs) {written : Nat}
    (last : ∀ sz done, s.client.phase = .body sz done → sz - done ≤ fetchBufferSize)
    (moved : s.writeFails written = some s') :
    s'.Synced restricted fs reqs ∧ s'.left restricted fs < s.left restricted fs := by
  unfold SshSession.writeFails at moved
  cases synced.place with
  | loading req rest content done phase todo outcome wired dest more =>
      rw [phase] at moved
      obtain ⟨⟨block, down⟩, took, moved⟩ := Option.bind_eq_some_iff.mp moved
      obtain ⟨part, moved⟩ := Option.ite_none_right_eq_some.mp moved
      cases moved
      obtain ⟨length, front, moves, _⟩ := Pipe.takeBlock_spec took
      rw [Nat.min_eq_right (last _ _ phase)] at length
      have split : content.drop done = block ++ down.bytes := wired.down.symm.trans front
      have count := congrArg List.length split
      rw [List.length_drop, List.length_append] at count
      have nothing : down.bytes = [] := List.length_eq_zero_iff.mp (by omega)
      rw [nothing, List.append_nil] at split
      have cut : s.client.dest ++ block.take written <+: content := by
        refine ⟨block.drop written, ?_⟩
        rw [List.append_assoc, List.take_append_drop, dest, ← split, List.take_append_drop]
      have client : ({ s with
          client := ({ s.client with dest := s.client.dest ++ block.take written } :
            SshClient).finish .fatal
          down } : SshSession).client =
            ({ s.client with dest := s.client.dest ++ block.take written } :
              SshClient).finish .fatal := rfl
      obtain ⟨next, count⟩ := synced.finished todo client
        (Or.inr ⟨by rw [outcome], rfl, by rw [outcome]; exact cut⟩)
        ⟨wired.connected, wired.running, wired.up, nothing, wired.served⟩
      refine ⟨next, ?_⟩
      rw [count, SshSession.left, phase, todo]
      dsimp only
      rw [moves, List.tail_cons]
      omega
  | fresh phase | between phase | closing phase | ended phase | greeting _ _ phase
  | asked _ _ phase | answered _ _ phase =>
      rw [phase] at moved
      cases moved

/-- A timeout behind some bytes ends the block early. -/
theorem SshSession.Synced.timeout (synced : s.Synced restricted fs reqs)
    (early : ∃ sz done, s.client.phase = .body sz done ∧ s.down.buffered ≠ [])
    (moved : s.timeout = some s') :
    s'.Synced restricted fs reqs ∧ s'.left restricted fs < s.left restricted fs := by
  obtain ⟨sz, done, loads, nonempty⟩ := early
  unfold SshSession.timeout at moved
  cases synced.place with
  | loading req rest content done phase todo outcome wired dest more =>
      simp only [phase] at moved
      split at moved
      · cases moved
      cases moved
      exact synced.advance phase todo outcome wired dest more (List.append_assoc ..) rfl nonempty
  | fresh phase | between phase | closing phase | ended phase | greeting _ _ phase
  | asked _ _ phase | answered _ _ phase =>
      rw [phase] at loads
      cases loads

/-- The server answers the command, or ends. -/
theorem SshSession.Synced.serve (synced : s.Synced restricted fs reqs)
    (polite : ∀ req ∈ reqs, req.WellFormed) (moved : s.serve restricted fs = some s') :
    s'.Synced restricted fs reqs ∧ s'.left restricted fs < s.left restricted fs := by
  obtain ⟨⟨running, _⟩, moved⟩ := Option.ite_none_right_eq_some.mp moved
  obtain ⟨⟨line, up⟩, took, rfl⟩ := Option.map_eq_some_iff.mp moved
  dsimp only
  have silent : s.up.bytes ≠ [] := fun empty => by
    rw [Pipe.takeLine, (Pipe.bytes_eq_nil.mp empty).1, if_neg List.not_mem_nil] at took
    cases took
  cases synced.place with
  | asked req rest phase todo wired =>
      have listed : req ∈ reqs := by
        have drops : reqs.drop s.client.results.length = req :: rest :=
          synced.todo.symm.trans todo
        exact List.mem_of_mem_drop (drops ▸ List.mem_cons_self ..)
      have dest := synced.dest fun sz done => by rw [phase]; exact fun same => by cases same
      obtain ⟨rfl, behind, moves, _⟩ := Pipe.takeLine_spec (polite req listed).text_plain.1
        (show s.up.bytes = req.text ++ '\n' :: [] from wired.up.trans req.command_eq) took
      have reply : pkgSshserveLine restricted (fs s.served) (req.text ++ ['\n']) =
          some (sshReply restricted fs s.client.results.length req) := by
        rw [wired.served]
        exact pkgSshserveLine_command (polite req listed)
      rw [reply]
      refine ⟨⟨synced.todo, synced.answered, fun _ => dest,
        .answered req rest phase todo ⟨wired.connected, running, behind, ?_, ?_⟩⟩, ?_⟩
      · rw [Pipe.bytes_put, wired.down, List.nil_append]
      · exact congrArg (· + 1) wired.served
      · rw [SshSession.left, SshSession.left]
        dsimp only
        rw [phase, todo]
        dsimp only
        rw [Pipe.moves_put, moves, wired.served, if_pos rfl, if_neg (Nat.succ_ne_self _)]
        omega
  | closing phase todo served wired =>
      have dest := synced.dest fun sz done => by rw [phase]; exact fun same => by cases same
      have oneLine : '\n' ∉ "quit".toList := by decide
      obtain ⟨rfl, behind, moves, _⟩ := Pipe.takeLine_spec oneLine
        (show s.up.bytes = "quit".toList ++ '\n' :: [] from wired.up) took
      have quit : pkgSshserveLine restricted (fs s.served) ("quit".toList ++ ['\n']) = none :=
        pkgSshserveLine_eq_none_iff.mpr (by decide)
      rw [quit]
      refine ⟨⟨synced.todo, synced.answered, fun _ => dest,
        .ended phase todo rfl behind wired.down⟩, ?_⟩
      rw [SshSession.left, SshSession.left]
      dsimp only
      rw [phase, running, moves]
      dsimp only
      rw [if_pos rfl, if_neg Bool.false_ne_true]
      omega
  | fresh _ _ _ up => exact absurd up silent
  | between _ wired | greeting _ _ _ _ wired | answered _ _ _ _ wired
  | loading _ _ _ _ _ _ _ wired => exact absurd wired.up silent
  | ended _ _ _ up => exact absurd up silent

/-- What one step keeps. -/
theorem SshSession.Synced.step (synced : s.Synced restricted fs reqs)
    (polite : ∀ req ∈ reqs, req.WellFormed) (stable : ∀ n, (fs n).Stable) {event : SshEvent}
    (undisturbed : s.Undisturbed event) (moved : s.step restricted fs event = some s') :
    s'.Synced restricted fs reqs ∧ s'.left restricted fs < s.left restricted fs := by
  cases event with
  | call => exact synced.call moved
  | readLine => exact synced.readLine stable moved
  | readBlock => exact synced.readBlock moved
  | writeFails written => exact synced.writeFails undisturbed moved
  | timeout => exact synced.timeout undisturbed moved
  | close => exact synced.close moved
  | serve => exact synced.serve polite moved
  | carryUp n =>
      obtain ⟨up, carried, rfl⟩ := Option.map_eq_some_iff.mp moved
      exact synced.move (Pipe.bytes_carry carried) rfl
        (Nat.add_lt_add_right (Pipe.moves_carry carried) _)
  | receiveUp n =>
      obtain ⟨up, received, rfl⟩ := Option.map_eq_some_iff.mp moved
      exact synced.move (Pipe.bytes_receive received) rfl
        (Nat.add_lt_add_right (Pipe.moves_receive received) _)
  | carryDown n =>
      obtain ⟨down, carried, rfl⟩ := Option.map_eq_some_iff.mp moved
      exact synced.move rfl (Pipe.bytes_carry carried)
        (Nat.add_lt_add_left (Pipe.moves_carry carried) _)
  | receiveDown n =>
      obtain ⟨down, received, rfl⟩ := Option.map_eq_some_iff.mp moved
      exact synced.move rfl (Pipe.bytes_receive received)
        (Nat.add_lt_add_left (Pipe.moves_receive received) _)

/-- The end of a session: all calls have returned, the server is gone, the streams are empty. -/
structure SshSession.Ended (reqs : List SshRequest) (s : SshSession) : Prop where
  phase : s.client.phase = .closed
  returned : s.client.results.length = reqs.length
  stopped : s.running = false
  up : s.up.bytes = []
  down : s.down.bytes = []

/-- The steps that are neither a timeout nor a failing `write`. -/
def SshEvent.Regular : SshEvent → Prop
  | .timeout | .writeFails _ => False
  | _ => True

theorem SshEvent.Regular.undisturbed {event : SshEvent} (regular : event.Regular) (s : SshSession) :
    s.Undisturbed event := by
  cases event with
  | timeout | writeFails => exact regular.elim
  | _ => trivial

/-- None of the two waits for the other. -/
theorem SshSession.Synced.goesOn (synced : s.Synced restricted fs reqs)
    (stable : ∀ n, (fs n).Stable) (unended : ¬s.Ended reqs) :
    ∃ event : SshEvent, event.Regular ∧ (s.step restricted fs event).isSome = true := by
  have reads : s.up.bytes = [] → s.client.phase = .greeting ∧ s.client.todo ≠ [] ∨
      s.client.phase = .answer → (s.down.takeLine '\n').isSome = true →
      (s.readLine).isSome = true := by
    intro upEmpty waits there
    obtain ⟨⟨line, down⟩, took⟩ := Option.isSome_iff_exists.mp there
    rw [SshSession.readLine, if_pos (Pipe.bytes_eq_nil.mp upEmpty).2.2, took, Option.bind_some]
    rcases waits with ⟨phase, some⟩ | phase
    · obtain ⟨req, rest, todo⟩ := List.exists_cons_of_ne_nil some
      simp only [phase, todo]
      split <;> rfl
    · simp only [phase]
      split <;> rfl
  have upward : ∀ {line}, s.up.bytes = line ++ ['\n'] → s.running = true → s.down.bytes = [] →
      ∃ event : SshEvent, event.Regular ∧ (s.step restricted fs event).isSome = true := by
    intro line stream running silent
    have stream : s.up.bytes = line ++ '\n' :: [] := stream
    rcases Pipe.line_moves stream with carried | received | there
    · exact ⟨.carryUp 1, trivial, by rwa [SshSession.step, Option.isSome_map]⟩
    · exact ⟨.receiveUp 1, trivial, by rwa [SshSession.step, Option.isSome_map]⟩
    · refine ⟨.serve, trivial, ?_⟩
      rw [SshSession.step, SshSession.serve,
        if_pos ⟨running, (Pipe.bytes_eq_nil.mp silent).2.2⟩, Option.isSome_map]
      exact there
  have downward : ∀ {line rest}, s.down.bytes = line ++ '\n' :: rest → s.up.bytes = [] →
      s.client.phase = .greeting ∧ s.client.todo ≠ [] ∨ s.client.phase = .answer →
      ∃ event : SshEvent, event.Regular ∧ (s.step restricted fs event).isSome = true := by
    intro line rest stream upEmpty waits
    rcases Pipe.line_moves stream with carried | received | there
    · exact ⟨.carryDown 1, trivial, by rwa [SshSession.step, Option.isSome_map]⟩
    · exact ⟨.receiveDown 1, trivial, by rwa [SshSession.step, Option.isSome_map]⟩
    · exact ⟨.readLine, trivial, reads upEmpty waits there⟩
  have idle : s.client.phase = .idle →
      ∃ event : SshEvent, event.Regular ∧ (s.step restricted fs event).isSome = true := by
    intro phase
    cases todo : s.client.todo with
    | nil =>
        refine ⟨.close, trivial, ?_⟩
        simp only [SshSession.step, SshSession.close, phase, todo]
        split <;> rfl
    | cons req rest =>
        refine ⟨.call, trivial, ?_⟩
        simp only [SshSession.step, SshSession.call, phase, todo]
        split <;> rfl
  cases synced.place with
  | fresh phase => exact idle phase
  | between phase => exact idle phase
  | greeting req rest phase todo wired =>
      have greeting : s.down.bytes = ("ok: pkg ".toList ++ PKGVERSION) ++ '\n' :: [] := by
        rw [wired.down]
        rfl
      exact downward greeting wired.up
        (Or.inl ⟨phase, by rw [todo]; exact List.cons_ne_nil _ _⟩)
  | asked req rest phase todo wired =>
      exact upward (wired.up.trans req.command_eq) wired.running wired.down
  | answered req rest phase todo wired =>
      obtain ⟨header, content, replied⟩ := @sshSendFile_replied restricted
        (fs s.client.results.length) req (stable _)
      exact downward (wired.down.trans replied.text) wired.up (Or.inr phase)
  | loading req rest content done phase todo outcome wired dest more =>
      have there : min fetchBufferSize (content.length - done) ≤ s.down.bytes.length := by
        rw [wired.down, List.length_drop]
        exact Nat.min_le_right _ _
      rcases Pipe.block_moves there with carried | received | there
      · exact ⟨.carryDown 1, trivial, by rwa [SshSession.step, Option.isSome_map]⟩
      · exact ⟨.receiveDown 1, trivial, by rwa [SshSession.step, Option.isSome_map]⟩
      · refine ⟨.readBlock, trivial, ?_⟩
        simp only [SshSession.step, SshSession.readBlock, phase, Option.isSome_map]
        exact there
  | closing phase todo served wired =>
      exact @upward "quit".toList wired.up wired.running wired.down
  | ended phase todo stopped up down =>
      refine absurd ⟨phase, ?_, stopped, up, down⟩ unended
      have drops := synced.todo.symm.trans todo
      have bound := List.drop_eq_nil_iff.mp drops
      refine Nat.le_antisymm ?_ bound
      by_contra more
      rw [Nat.not_le] at more
      obtain ⟨req, place, _⟩ := synced.answered _ _ (List.getElem?_eq_getElem more)
      rw [List.getElem?_eq_none (Nat.le_refl _)] at place
      cases place

theorem SshSession.synced_start : (SshSession.start reqs).Synced restricted fs reqs where
  todo := rfl
  answered := nofun
  dest := fun _ => rfl
  place := .fresh rfl rfl rfl rfl rfl rfl

end Session

/-- Every file holds its own name. -/
def namesakes : ServerFiles where
  fstatat := fun file => some ⟨true, min file.length longMax, 1, Nat.min_le_right _ _⟩
  openat := fun file => some (file.take longMax)
  realpath := some

def twoRequests : List SshRequest := [⟨"/a".toList, 0⟩, ⟨"/bc".toList, 0⟩]

def twoDownloads : List SshEvent :=
  [.call, .carryDown 26, .receiveDown 26, .readLine, .carryUp 9, .receiveUp 9, .serve,
    .carryDown 7, .receiveDown 7, .readLine, .readBlock,
    .call, .carryUp 10, .receiveUp 10, .serve, .carryDown 8, .receiveDown 8, .readLine, .readBlock]

/-- A call that does not wait for its answer leaves it to the next one. -/
example : ((runEvents (SshSession.step none fun _ => namesakes) (SshSession.start twoRequests)
    [.call, .carryDown 26, .receiveDown 26, .readLine, .carryUp 9, .receiveUp 9, .serve, .timeout,
      .call, .carryUp 10, .carryDown 7, .receiveDown 7, .readLine, .readBlock]).map fun s => s.client.results) =
        some [(.fatal, []), (.ok, ['a'])] := by
  decide +kernel

end Pkgng
