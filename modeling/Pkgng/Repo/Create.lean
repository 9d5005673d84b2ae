import Pkgng.Lib.OwnedSpans
import Pkgng.Lib.Runs
import Pkgng.Repo.DigestRecord

/-!
# Creating a repository

`pkg_create_repo` and its workers as processes over the shared manifests file.  A
step of a worker is one system call; `flock` excludes the other workers, and
`writev` writes everything or fails.  The parent polls the workers and reads their
records.
-/

set_option autoImplicit false

namespace Pkgng

open Lib

/-- Where a worker stands: the system call it makes next. -/
inductive WorkerPc
  | waiting
  | next
  | opened (pkg : RepoPackage)
  | locked (pkg : RepoPackage)
  | sought (pkg : RepoPackage) (mpos : Nat)
  | written (pkg : RepoPackage) (mpos : Nat)
  | lockFiles (pkg : RepoPackage) (mpos : Nat)
  | filesLocked (pkg : RepoPackage) (mpos : Nat)
  | filesSought (pkg : RepoPackage) (mpos fpos : Nat)
  | filesWritten (pkg : RepoPackage) (mpos fpos : Nat)
  | send (region : Region)
  | cleanup
  | exited
deriving DecidableEq, Repr

/-- The parent polls, or is in `pkg_create_repo_read_pipe` for a worker. -/
inductive ParentPc (Worker : Type)
  | polling
  | reading (worker : Worker) (state : PipeState)
  | aborted
deriving DecidableEq, Repr

structure CreateState (Worker : Type) where
  manifests : Text := []
  filesite : Text := []
  manifestsLock : Option Worker := none
  filesiteLock : Option Worker := none
  pc : Worker → WorkerPc := fun _ => .waiting
  todo : Worker → List RepoPackage
  socket : Worker → List Text := fun _ => []
  finished : Worker → Bool := fun _ => false
  parent : ParentPc Worker := .polling
  dlist : List DigestEntry := []

inductive CreateEvent (Worker : Type)
  | step (worker : Worker)
  | fail (worker : Worker)
  | poll (worker : Worker)
  | read
deriving DecidableEq, Repr

namespace CreateState

variable {Worker : Type} [DecidableEq Worker]

/-- The packages are split over the workers. -/
def start (split : Worker → List RepoPackage) : CreateState Worker := { todo := split }

def goto (state : CreateState Worker) (worker : Worker) (pc : WorkerPc) : CreateState Worker :=
  { state with pc := Function.update state.pc worker pc }

def push (state : CreateState Worker) (worker : Worker) (message : Text) : CreateState Worker :=
  { state with
    socket := Function.update state.socket worker (state.socket worker ++ [message]) }

/-- The next system call of the worker succeeds; `none` while it blocks.  The worker
reads the file lists as well when `readFiles` is set. -/
def workerStep (readFiles : Bool) (state : CreateState Worker) (worker : Worker) :
    Option (CreateState Worker) :=
  match state.pc worker with
  | .waiting => some (state.goto worker .next)
  | .next =>
      match state.todo worker with
      | [] => some (state.goto worker .cleanup)
      | pkg :: rest =>
          some ({ state with todo := Function.update state.todo worker rest }.goto worker
            (.opened pkg))
  | .opened pkg =>
      if state.manifestsLock = none then
        some ({ state with manifestsLock := some worker }.goto worker (.locked pkg))
      else none
  | .locked pkg => some (state.goto worker (.sought pkg state.manifests.length))
  | .sought pkg mpos =>
      some ({ state with manifests := state.manifests ++ pkg.manifest ++ ['\n'] }.goto worker
        (.written pkg mpos))
  | .written pkg mpos =>
      some ({ state with manifestsLock := none }.goto worker
        (if readFiles then .lockFiles pkg mpos else .send ⟨mpos, 0, pkg⟩))
  | .lockFiles pkg mpos =>
      if state.filesiteLock = none then
        some ({ state with filesiteLock := some worker }.goto worker (.filesLocked pkg mpos))
      else none
  | .filesLocked pkg mpos =>
      some (state.goto worker (.filesSought pkg mpos state.filesite.length))
  | .filesSought pkg mpos fpos =>
      some ({ state with filesite := state.filesite ++ pkg.filelist }.goto worker
        (.filesWritten pkg mpos fpos))
  | .filesWritten pkg mpos fpos =>
      some ({ state with filesiteLock := none }.goto worker (.send ⟨mpos, fpos, pkg⟩))
  | .send region =>
      some ((state.push worker (digestMessage (digestLine region))).goto worker .next)
  | .cleanup => some ((state.push worker endMessage).goto worker .exited)
  | .exited => none

/-- The next call of the worker fails: the start marker is not read, the package is
not opened, its digest or a lock is not got, the manifest is not written, or a
message is not sent. -/
def workerFail (state : CreateState Worker) (worker : Worker) : Option (CreateState Worker) :=
  match state.pc worker with
  | .waiting => some (state.goto worker .cleanup)
  | .next => some { state with todo := Function.update state.todo worker (state.todo worker).tail }
  | .opened _ => some (state.goto worker .cleanup)
  | .sought _ _ => some ({ state with manifestsLock := none }.goto worker .cleanup)
  | .lockFiles _ _ => some (state.goto worker .cleanup)
  | .send _ => some (state.goto worker .next)
  | .cleanup => some (state.goto worker .exited)
  | _ => none

/-- One `read` of the parent: it goes on with the next message, comes back to `poll`
when there is none, or has reached the end of a worker that is gone. -/
def parentRead (state : CreateState Worker) (worker : Worker) (pipe : PipeState) :
    CreateState Worker :=
  match state.socket worker with
  | [] =>
      { state with
        parent := .polling
        finished := Function.update state.finished worker
          (state.finished worker || decide (state.pc worker = .exited)) }
  | message :: rest =>
      let state := { state with socket := Function.update state.socket worker rest }
      match readMessage pipe [] message with
      | .more pipe => { state with parent := .reading worker pipe }
      | .record entry pipe =>
          { state with parent := .reading worker pipe, dlist := state.dlist ++ [entry] }
      | .finished =>
          { state with
            parent := .polling
            finished := Function.update state.finished worker true }
      | .abort => { state with parent := .aborted }

end CreateState

def createStep {Worker : Type} [DecidableEq Worker] (readFiles : Bool)
    (state : CreateState Worker) : CreateEvent Worker → Option (CreateState Worker)
  | .step worker => state.workerStep readFiles worker
  | .fail worker => state.workerFail worker
  | .poll worker =>
      if state.parent = .polling ∧ state.finished worker = false then
        some { state with parent := .reading worker {} }
      else none
  | .read =>
      match state.parent with
      | .reading worker pipe => some (state.parentRead worker pipe)
      | _ => none

/-! ## What the records say -/

/-- The record gives the place of the manifest of one of the packages. -/
def DigestEntry.Records (manifests : Text) (pkg : RepoPackage) (entry : DigestEntry) : Prop :=
  entry.origin = some pkg.origin ∧ entry.digest = some pkg.digest ∧
    entry.checksum = some pkg.checksum ∧
    ∃ pos length : Nat, entry.manifestPos = pos ∧ entry.manifestLength = length ∧
      pos + length ≤ manifests.length ∧ (manifests.drop pos).take length = pkg.manifest

def DigestEntry.Apart (entry other : DigestEntry) : Prop :=
  entry.manifestPos + entry.manifestLength ≤ other.manifestPos ∨
    other.manifestPos + other.manifestLength ≤ entry.manifestPos

/-- Every record of the parent is right, and no two of them overlap. -/
structure RecordsRight {Worker : Type} (split : Worker → List RepoPackage)
    (state : CreateState Worker) : Prop where
  right : ∀ entry ∈ state.dlist, ∃ worker, ∃ pkg ∈ split worker,
    entry.Records state.manifests pkg
  apart : state.dlist.Pairwise DigestEntry.Apart

/-- A record is sent only if its line fits the buffer and keeps its fields apart. -/
def FittingRecords {Worker : Type} (state : CreateState Worker) : CreateEvent Worker → Prop
  | .step worker => ∀ region, state.pc worker = .send region → region.Fits
  | _ => True

/-! ## The invariant -/

def Region.span (region : Region) : Span Char := ⟨region.mpos, region.pkg.manifest⟩

namespace WorkerPc

/-- The worker has `flock` on the manifests file. -/
def Holds : WorkerPc → Prop
  | .locked _ => True
  | .sought _ _ => True
  | .written _ _ => True
  | _ => False

/-- The manifest that is written and not yet sent. -/
def spans : WorkerPc → List (Span Char)
  | .written pkg mpos => [⟨mpos, pkg.manifest⟩]
  | .lockFiles pkg mpos => [⟨mpos, pkg.manifest⟩]
  | .filesLocked pkg mpos => [⟨mpos, pkg.manifest⟩]
  | .filesSought pkg mpos _ => [⟨mpos, pkg.manifest⟩]
  | .filesWritten pkg mpos _ => [⟨mpos, pkg.manifest⟩]
  | .send region => [region.span]
  | _ => []

/-- The package the worker is busy with. -/
def package : WorkerPc → Option RepoPackage
  | .opened pkg => some pkg
  | .locked pkg => some pkg
  | .sought pkg _ => some pkg
  | .written pkg _ => some pkg
  | .lockFiles pkg _ => some pkg
  | .filesLocked pkg _ => some pkg
  | .filesSought pkg _ _ => some pkg
  | .filesWritten pkg _ _ => some pkg
  | .send region => some region.pkg
  | _ => none

end WorkerPc

/-- The spans by who has them: the parent, or a worker with what it has sent. -/
def createClaims {Worker : Type} (received : List Region) (flight : Worker → List Region)
    (pc : Worker → WorkerPc) : Option Worker → List (Span Char)
  | none => received.map Region.span
  | some worker => (flight worker).map Region.span ++ (pc worker).spans

/-- `received` are the regions the parent has records of, `flight` those whose
records are in the sockets. -/
structure CreateInv {Worker : Type} (split : Worker → List RepoPackage)
    (state : CreateState Worker) (received : List Region)
    (flight : Worker → List Region) : Prop where
  lock : ∀ worker, (state.pc worker).Holds → state.manifestsLock = some worker
  sought : ∀ worker pkg mpos, state.pc worker = .sought pkg mpos →
    mpos = state.manifests.length
  spans : OwnedSpans state.manifests (createClaims received flight state.pc)
  dlist : state.dlist = received.map Region.entry
  socket : ∀ worker, ∃ tail, state.socket worker = (flight worker).map digestLine ++ tail ∧
    (tail = [] ∨ tail = [endMessage] ∧ state.pc worker = .exited)
  fits : ∀ worker, ∀ region ∈ flight worker, region.Fits
  reader : ∀ worker pipe, state.parent = .reading worker pipe → pipe.field = .setOrigin
  todo : ∀ worker, ∀ pkg ∈ state.todo worker, pkg ∈ split worker
  current : ∀ worker, ∀ pkg, (state.pc worker).package = some pkg → pkg ∈ split worker
  flying : ∀ worker, ∀ region ∈ flight worker, region.pkg ∈ split worker
  listed : ∀ region ∈ received, ∃ worker, region.pkg ∈ split worker

theorem CreateInv.start {Worker : Type} (split : Worker → List RepoPackage) :
    CreateInv split (CreateState.start split) [] (fun _ => []) where
  lock _ holds := holds.elim
  sought _ _ _ atSought := nomatch atSought
  spans := by
    apply (OwnedSpans.none _).sublist
    rintro (_ | worker)
    · exact List.Sublist.refl []
    · exact List.Sublist.refl []
  dlist := rfl
  socket _ := ⟨[], rfl, Or.inl rfl⟩
  fits _ := nofun
  reader := nofun
  todo _ _ member := member
  current := nofun
  flying _ := nofun
  listed := nofun

theorem CreateInv.recordsRight {Worker : Type} {split : Worker → List RepoPackage}
    {state : CreateState Worker} {received : List Region} {flight : Worker → List Region}
    (inv : CreateInv split state received flight) : RecordsRight split state where
  right entry member := by
    rw [inv.dlist, List.mem_map] at member
    obtain ⟨region, received, rfl⟩ := member
    obtain ⟨worker, pkg⟩ := inv.listed region received
    have written := inv.spans.written none region.span (List.mem_map_of_mem received)
    exact ⟨worker, region.pkg, pkg, rfl, rfl, rfl, region.mpos, region.pkg.manifest.length, rfl,
      rfl, written.end_le, written.slice⟩
  apart := by
    rw [inv.dlist, List.pairwise_map]
    have own := inv.spans.own none
    rw [createClaims, List.pairwise_map] at own
    apply own.imp
    intro region other disjoint
    simp only [Span.Disjoint, Region.span] at disjoint
    simp only [DigestEntry.Apart, Region.entry]
    omega

/-! ## The steps -/

section Steps

variable {Worker : Type} [DecidableEq Worker] {split : Worker → List RepoPackage}
  {state next : CreateState Worker} {received : List Region} {flight : Worker → List Region}
  {worker : Worker}

/-- A worker goes on without a new span and without a message. -/
theorem CreateInv.goto (inv : CreateInv split state received flight) {pc : WorkerPc}
    (pcs : next.pc = Function.update state.pc worker pc)
    (manifests : next.manifests = state.manifests) (socket : next.socket = state.socket)
    (parent : next.parent = state.parent) (dlist : next.dlist = state.dlist)
    (running : state.pc worker ≠ .exited)
    (lock : pc.Holds → next.manifestsLock = some worker)
    (others : ∀ other, other ≠ worker → state.manifestsLock = some other →
      next.manifestsLock = some other)
    (sought : ∀ pkg mpos, pc = .sought pkg mpos → mpos = state.manifests.length)
    (spans : pc.spans.Sublist (state.pc worker).spans)
    (todo : ∀ other, ∀ pkg ∈ next.todo other, pkg ∈ state.todo other)
    (current : ∀ pkg, pc.package = some pkg → pkg ∈ split worker) :
    CreateInv split next received flight where
  lock := by
    rw [pcs]
    exact (Function.forall_update_iff state.pc fun other pc =>
      pc.Holds → next.manifestsLock = some other).mpr
        ⟨lock, fun other apart holds => others other apart (inv.lock other holds)⟩
  sought := by
    rw [pcs, manifests]
    exact (Function.forall_update_iff state.pc fun _ pc =>
      ∀ pkg mpos, pc = .sought pkg mpos → mpos = state.manifests.length).mpr
        ⟨sought, fun other _ => inv.sought other⟩
  spans := by
    rw [manifests, pcs]
    apply inv.spans.sublist
    rintro (_ | other)
    · exact List.Sublist.refl _
    · apply List.Sublist.append (List.Sublist.refl _)
      by_cases same : other = worker
      · subst same
        rw [Function.update_self]
        exact spans
      · rw [Function.update_of_ne same]
  dlist := by rw [dlist, inv.dlist]
  socket other := by
    obtain ⟨tail, messages, ending⟩ := inv.socket other
    rw [socket, pcs]
    refine ⟨tail, messages, ?_⟩
    rcases ending with none | ⟨ending, exited⟩
    · exact Or.inl none
    · refine Or.inr ⟨ending, ?_⟩
      rw [Function.update_of_ne]
      · exact exited
      · rintro rfl
        exact running exited
  fits := inv.fits
  reader other pipe reading := by
    rw [parent] at reading
    exact inv.reader other pipe reading
  todo other pkg member := inv.todo other pkg (todo other pkg member)
  current := by
    rw [pcs]
    exact (Function.forall_update_iff state.pc fun other pc =>
      ∀ pkg, pc.package = some pkg → pkg ∈ split other).mpr
        ⟨current, fun other _ => inv.current other⟩
  flying := inv.flying
  listed := inv.listed

/-- The manifest is appended at the position found under the lock. -/
theorem CreateInv.write (inv : CreateInv split state received flight) {pkg : RepoPackage}
    {mpos : Nat} (atSought : state.pc worker = .sought pkg mpos) :
    CreateInv split ({ state with
      manifests := state.manifests ++ pkg.manifest ++ ['\n'] }.goto worker (.written pkg mpos))
      received flight where
  lock := (Function.forall_update_iff state.pc fun other pc =>
    pc.Holds → state.manifestsLock = some other).mpr
      ⟨fun _ => inv.lock worker (by rw [atSought]; trivial), fun other _ => inv.lock other⟩
  sought other pkg' mpos' atSought' := by
    simp only [CreateState.goto] at atSought'
    by_cases same : other = worker
    · subst same
      rw [Function.update_self] at atSought'
      cases atSought'
    · -- The lock excludes a second worker at this point.
      rw [Function.update_of_ne same] at atSought'
      have first := inv.lock worker (by rw [atSought]; trivial)
      have second := inv.lock other (by rw [atSought']; trivial)
      rw [first] at second
      exact absurd (Option.some.inj second).symm same
  spans := by
    have written := inv.spans.write (some worker) pkg.manifest ['\n']
    rw [← inv.sought worker pkg mpos atSought] at written
    apply written.sublist
    rintro (_ | other)
    · exact List.Sublist.refl _
    · simp only [CreateState.goto]
      by_cases same : other = worker
      · subst same
        simp [createClaims, atSought, WorkerPc.spans]
      · rw [Function.update_of_ne (by simpa using same)]
        simp [createClaims, Function.update_of_ne same]
  dlist := inv.dlist
  socket other := by
    obtain ⟨tail, messages, ending⟩ := inv.socket other
    refine ⟨tail, messages, ?_⟩
    rcases ending with none | ⟨ending, exited⟩
    · exact Or.inl none
    · refine Or.inr ⟨ending, ?_⟩
      simp only [CreateState.goto]
      rw [Function.update_of_ne]
      · exact exited
      · rintro rfl
        rw [atSought] at exited
        cases exited
  fits := inv.fits
  reader := inv.reader
  todo := inv.todo
  current := (Function.forall_update_iff state.pc fun other pc =>
    ∀ pkg, pc.package = some pkg → pkg ∈ split other).mpr
      ⟨fun pkg' busy => inv.current worker pkg' (by rw [atSought]; exact busy),
        fun other _ => inv.current other⟩
  flying := inv.flying
  listed := inv.listed

/-- The record of the written manifest goes into the socket. -/
theorem CreateInv.send (inv : CreateInv split state received flight) {region : Region}
    (atSend : state.pc worker = .send region) (fits : region.Fits) :
    CreateInv split
      ((state.push worker (digestMessage (digestLine region))).goto worker .next) received
      (Function.update flight worker (flight worker ++ [region])) where
  lock := (Function.forall_update_iff state.pc fun other pc =>
    pc.Holds → state.manifestsLock = some other).mpr
      ⟨fun holds => holds.elim, fun other _ => inv.lock other⟩
  sought := (Function.forall_update_iff state.pc fun _ pc =>
    ∀ pkg mpos, pc = .sought pkg mpos → mpos = state.manifests.length).mpr
      ⟨nofun, fun other _ => inv.sought other⟩
  spans := by
    apply inv.spans.sublist
    rintro (_ | other)
    · exact List.Sublist.refl _
    · by_cases same : other = worker
      · subst same
        simp [createClaims, CreateState.goto, CreateState.push, atSend, WorkerPc.spans]
      · simp [createClaims, CreateState.goto, CreateState.push, same]
  dlist := inv.dlist
  socket other := by
    obtain ⟨tail, messages, ending⟩ := inv.socket other
    by_cases same : other = worker
    · subst same
      have none : tail = [] := by
        rcases ending with none | ⟨_, exited⟩
        · exact none
        · rw [atSend] at exited
          cases exited
      refine ⟨[], ?_, Or.inl rfl⟩
      simp [CreateState.goto, CreateState.push, messages, none, digestMessage_of_fits fits]
    · refine ⟨tail, ?_, ?_⟩
      · simp only [CreateState.goto, CreateState.push]
        rw [Function.update_of_ne same, Function.update_of_ne same]
        exact messages
      · simp only [CreateState.goto, CreateState.push]
        rw [Function.update_of_ne same]
        exact ending
  fits := by
    refine (Function.forall_update_iff flight fun _ sent => ∀ region ∈ sent, region.Fits).mpr
      ⟨fun sent member => ?_, fun other _ => inv.fits other⟩
    rw [List.mem_append, List.mem_singleton] at member
    rcases member with old | rfl
    · exact inv.fits worker sent old
    · exact fits
  reader := inv.reader
  todo := inv.todo
  current := (Function.forall_update_iff state.pc fun other pc =>
    ∀ pkg, pc.package = some pkg → pkg ∈ split other).mpr
      ⟨nofun, fun other _ => inv.current other⟩
  flying := by
    refine (Function.forall_update_iff flight fun other sent =>
      ∀ region ∈ sent, region.pkg ∈ split other).mpr
        ⟨fun sent member => ?_, fun other _ => inv.flying other⟩
    rw [List.mem_append, List.mem_singleton] at member
    rcases member with old | rfl
    · exact inv.flying worker sent old
    · exact inv.current worker sent.pkg (by rw [atSend]; rfl)
  listed := inv.listed

/-- The end marker goes into the socket. -/
theorem CreateInv.finish (inv : CreateInv split state received flight)
    (atCleanup : state.pc worker = .cleanup) :
    CreateInv split ((state.push worker endMessage).goto worker .exited) received flight where
  lock := (Function.forall_update_iff state.pc fun other pc =>
    pc.Holds → state.manifestsLock = some other).mpr
      ⟨fun holds => holds.elim, fun other _ => inv.lock other⟩
  sought := (Function.forall_update_iff state.pc fun _ pc =>
    ∀ pkg mpos, pc = .sought pkg mpos → mpos = state.manifests.length).mpr
      ⟨nofun, fun other _ => inv.sought other⟩
  spans := by
    apply inv.spans.sublist
    rintro (_ | other)
    · exact List.Sublist.refl _
    · by_cases same : other = worker
      · subst same
        simp [createClaims, CreateState.goto, CreateState.push, WorkerPc.spans]
      · simp [createClaims, CreateState.goto, CreateState.push, same]
  dlist := inv.dlist
  socket other := by
    obtain ⟨tail, messages, ending⟩ := inv.socket other
    by_cases same : other = worker
    · subst same
      have none : tail = [] := by
        rcases ending with none | ⟨_, exited⟩
        · exact none
        · rw [atCleanup] at exited
          cases exited
      refine ⟨[endMessage], ?_, Or.inr ⟨rfl, ?_⟩⟩
      · simp [CreateState.goto, CreateState.push, messages, none]
      · simp [CreateState.goto]
    · refine ⟨tail, ?_, ?_⟩
      · simp only [CreateState.goto, CreateState.push]
        rw [Function.update_of_ne same]
        exact messages
      · simp only [CreateState.goto, CreateState.push]
        rw [Function.update_of_ne same]
        exact ending
  fits := inv.fits
  reader := inv.reader
  todo := inv.todo
  current := (Function.forall_update_iff state.pc fun other pc =>
    ∀ pkg, pc.package = some pkg → pkg ∈ split other).mpr
      ⟨nofun, fun other _ => inv.current other⟩
  flying := inv.flying
  listed := inv.listed

/-- Nothing but the parent and the ends of workers changes. -/
theorem CreateInv.parent {Worker : Type} {split : Worker → List RepoPackage}
    {state : CreateState Worker} {received : List Region} {flight : Worker → List Region}
    (inv : CreateInv split state received flight) {parent : ParentPc Worker} {finished : Worker → Bool}
    (reader : ∀ worker pipe, parent = .reading worker pipe → pipe.field = .setOrigin) :
    CreateInv split { state with parent := parent, finished := finished } received flight where
  lock := inv.lock
  sought := inv.sought
  spans := inv.spans
  dlist := inv.dlist
  socket := inv.socket
  fits := inv.fits
  reader := reader
  todo := inv.todo
  current := inv.current
  flying := inv.flying
  listed := inv.listed

/-- The end marker leaves the socket. -/
theorem CreateInv.popEnd (inv : CreateInv split state received flight)
    (nothing : flight worker = []) :
    CreateInv split { state with socket := Function.update state.socket worker [] }
      received flight where
  lock := inv.lock
  sought := inv.sought
  spans := inv.spans
  dlist := inv.dlist
  socket other := by
    by_cases same : other = worker
    · subst same
      exact ⟨[], by simp [nothing], Or.inl rfl⟩
    · simp only [Function.update_of_ne same]
      exact inv.socket other
  fits := inv.fits
  reader := inv.reader
  todo := inv.todo
  current := inv.current
  flying := inv.flying
  listed := inv.listed

/-- A record leaves the socket and joins the list. -/
theorem CreateInv.receive (inv : CreateInv split state received flight) {region : Region}
    {rest : List Region} {messages : List Text} (first : flight worker = region :: rest)
    (socket : state.socket worker = digestLine region :: messages) :
    CreateInv split
      { state with
        socket := Function.update state.socket worker messages
        dlist := state.dlist ++ [region.entry] }
      (received ++ [region]) (Function.update flight worker rest) where
  lock := inv.lock
  sought := inv.sought
  spans := by
    have claimed : createClaims received flight state.pc (some worker) =
        region.span :: (rest.map Region.span ++ (state.pc worker).spans) := by
      rw [createClaims, first]
      rfl
    have different : some worker ≠ none := by simp
    have handed := inv.spans.hand different claimed
    apply handed.sublist
    rintro (_ | other)
    · simp [createClaims]
    · by_cases same : other = worker
      · subst same
        simp [createClaims]
      · simp [createClaims, same]
  dlist := by
    simp only [inv.dlist, List.map_append, List.map_cons, List.map_nil]
  socket other := by
    obtain ⟨tail, line, ending⟩ := inv.socket other
    by_cases same : other = worker
    · subst same
      rw [socket, first, List.map_cons, List.cons_append] at line
      refine ⟨tail, ?_, ending⟩
      simp only [Function.update_self]
      exact (List.cons.inj line).2
    · simp only [Function.update_of_ne same]
      exact ⟨tail, line, ending⟩
  fits := (Function.forall_update_iff flight fun _ sent => ∀ region ∈ sent, region.Fits).mpr
    ⟨fun sent member => inv.fits worker sent (by rw [first]; exact List.mem_cons_of_mem _ member),
      fun other _ => inv.fits other⟩
  reader := inv.reader
  todo := inv.todo
  current := inv.current
  flying := (Function.forall_update_iff flight fun other sent =>
    ∀ region ∈ sent, region.pkg ∈ split other).mpr
      ⟨fun sent member =>
        inv.flying worker sent (by rw [first]; exact List.mem_cons_of_mem _ member),
        fun other _ => inv.flying other⟩
  listed sent member := by
    rw [List.mem_append, List.mem_singleton] at member
    rcases member with old | rfl
    · exact inv.listed sent old
    · exact ⟨worker, inv.flying worker sent (by rw [first]; exact List.mem_cons_self)⟩

theorem CreateInv.parentRead (inv : CreateInv split state received flight) {pipe : PipeState}
    (reading : state.parent = .reading worker pipe) :
    ∃ received flight, CreateInv split (state.parentRead worker pipe) received flight := by
  obtain ⟨tail, messages, ending⟩ := inv.socket worker
  have field := inv.reader worker pipe reading
  unfold CreateState.parentRead
  cases flying : flight worker with
  | nil =>
      rw [flying, List.map_nil, List.nil_append] at messages
      rcases ending with rfl | ⟨rfl, _⟩
      · rw [messages]
        exact ⟨received, flight, inv.parent nofun⟩
      · rw [messages]
        exact ⟨received, flight, (inv.popEnd flying).parent nofun⟩
  | cons region rest =>
      rw [flying, List.map_cons, List.cons_append] at messages
      have fits := inv.fits worker region (by rw [flying]; exact List.mem_cons_self)
      have record := readMessage_digestLine fits pipe.entry
      have fresh : pipe = { field := .setOrigin, entry := pipe.entry } := by
        rw [← field]
      rw [← fresh] at record
      rw [messages]
      simp only [record]
      refine ⟨received ++ [region], Function.update flight worker rest, ?_⟩
      apply (inv.receive flying messages).parent
      intro other pipe' same
      cases same
      rfl

theorem CreateInv.workerStep (inv : CreateInv split state received flight) {readFiles : Bool}
    (careful : ∀ region, state.pc worker = .send region → region.Fits)
    (step : state.workerStep readFiles worker = some next) :
    ∃ flight, CreateInv split next received flight := by
  unfold CreateState.workerStep at step
  have current := inv.current worker
  cases pc : state.pc worker with
  | waiting =>
      simp only [pc] at step
      cases Option.some.inj step
      exact ⟨flight, inv.goto rfl rfl rfl rfl rfl (by simp [pc]) nofun (fun _ _ held => held) nofun
        (List.nil_sublist _) (fun _ _ member => member) nofun⟩
  | next =>
      simp only [pc] at step
      cases todo : state.todo worker with
      | nil =>
          simp only [todo] at step
          cases Option.some.inj step
          exact ⟨flight, inv.goto rfl rfl rfl rfl rfl (by simp [pc]) nofun
            (fun _ _ held => held) nofun (List.nil_sublist _) (fun _ _ member => member) nofun⟩
      | cons pkg rest =>
          simp only [todo] at step
          cases Option.some.inj step
          refine ⟨flight, inv.goto rfl rfl rfl rfl rfl (by simp [pc]) nofun
            (fun _ _ held => held) nofun (List.nil_sublist _) ?_ ?_⟩
          · intro other pkg' member
            simp only [CreateState.goto] at member
            by_cases same : other = worker
            · subst same
              rw [Function.update_self] at member
              rw [todo]
              exact List.mem_cons_of_mem pkg member
            · rwa [Function.update_of_ne same] at member
          · intro pkg' busy
            cases Option.some.inj busy
            exact inv.todo worker pkg (by rw [todo]; exact List.mem_cons_self)
  | opened pkg =>
      simp only [pc, Option.ite_none_right_eq_some] at step
      obtain ⟨free, step⟩ := step
      cases Option.some.inj step
      refine ⟨flight, inv.goto rfl rfl rfl rfl rfl (by simp [pc]) (fun _ => rfl) ?_ nofun
        (List.nil_sublist _) (fun _ _ member => member) ?_⟩
      · intro other _ held
        rw [free] at held
        cases held
      · rw [pc] at current
        exact current
  | locked pkg =>
      simp only [pc] at step
      cases Option.some.inj step
      refine ⟨flight, inv.goto rfl rfl rfl rfl rfl (by simp [pc]) (fun _ => ?_)
        (fun _ _ held => held) ?_ (List.nil_sublist _) (fun _ _ member => member) ?_⟩
      · exact inv.lock worker (by rw [pc]; trivial)
      · intro pkg' mpos same
        cases same
        rfl
      · rw [pc] at current
        exact current
  | sought pkg mpos =>
      simp only [pc] at step
      cases Option.some.inj step
      exact ⟨flight, inv.write pc⟩
  | written pkg mpos =>
      have held := inv.lock worker (by rw [pc]; trivial)
      have others : ∀ other, other ≠ worker → state.manifestsLock = some other →
          (none : Option Worker) = some other := by
        intro other different second
        rw [held] at second
        exact absurd (Option.some.inj second).symm different
      simp only [pc] at step
      cases Option.some.inj step
      rw [pc] at current
      cases readFiles with
      | false =>
          exact ⟨flight, inv.goto rfl rfl rfl rfl rfl (by simp [pc]) (by simp [WorkerPc.Holds])
            others (by simp) (by simp [pc, WorkerPc.spans, Region.span])
            (fun _ _ member => member) current⟩
      | true =>
          exact ⟨flight, inv.goto rfl rfl rfl rfl rfl (by simp [pc]) (by simp [WorkerPc.Holds])
            others (by simp) (by simp [pc, WorkerPc.spans]) (fun _ _ member => member) current⟩
  | lockFiles pkg mpos =>
      simp only [pc, Option.ite_none_right_eq_some] at step
      obtain ⟨_, step⟩ := step
      cases Option.some.inj step
      rw [pc] at current
      exact ⟨flight, inv.goto rfl rfl rfl rfl rfl (by simp [pc]) nofun (fun _ _ held => held)
        nofun (by simp [pc, WorkerPc.spans]) (fun _ _ member => member) current⟩
  | filesLocked pkg mpos =>
      simp only [pc] at step
      cases Option.some.inj step
      rw [pc] at current
      exact ⟨flight, inv.goto rfl rfl rfl rfl rfl (by simp [pc]) nofun (fun _ _ held => held)
        nofun (by simp [pc, WorkerPc.spans]) (fun _ _ member => member) current⟩
  | filesSought pkg mpos fpos =>
      simp only [pc] at step
      cases Option.some.inj step
      rw [pc] at current
      exact ⟨flight, inv.goto rfl rfl rfl rfl rfl (by simp [pc]) nofun (fun _ _ held => held)
        nofun (by simp [pc, WorkerPc.spans]) (fun _ _ member => member) current⟩
  | filesWritten pkg mpos fpos =>
      simp only [pc] at step
      cases Option.some.inj step
      rw [pc] at current
      exact ⟨flight, inv.goto rfl rfl rfl rfl rfl (by simp [pc]) nofun (fun _ _ held => held)
        nofun (by simp [pc, WorkerPc.spans, Region.span]) (fun _ _ member => member) current⟩
  | send region =>
      simp only [pc] at step
      cases Option.some.inj step
      exact ⟨_, inv.send pc (careful region pc)⟩
  | cleanup =>
      simp only [pc] at step
      cases Option.some.inj step
      exact ⟨flight, inv.finish pc⟩
  | exited =>
      simp only [pc] at step
      cases step

theorem CreateInv.workerFail (inv : CreateInv split state received flight)
    (step : state.workerFail worker = some next) : CreateInv split next received flight := by
  unfold CreateState.workerFail at step
  have idle : ∀ pc : WorkerPc, pc = .cleanup ∨ pc = .next ∨ pc = .exited →
      ∀ lock : Option Worker, (∀ other, other ≠ worker → state.manifestsLock = some other →
        lock = some other) → state.pc worker ≠ .exited →
      CreateInv split ({ state with manifestsLock := lock }.goto worker pc) received flight := by
    intro pc idle lock others running
    rcases idle with rfl | rfl | rfl <;>
      exact inv.goto rfl rfl rfl rfl rfl running nofun others nofun (List.nil_sublist _)
        (fun _ _ member => member) nofun
  have keep : ∀ other, other ≠ worker → state.manifestsLock = some other →
      state.manifestsLock = some other := fun _ _ held => held
  split at step
  · next pc =>
      cases Option.some.inj step
      exact idle .cleanup (Or.inl rfl) state.manifestsLock keep (by simp [pc])
  · next pc =>
      cases Option.some.inj step
      have todo : ∀ other, ∀ pkg ∈ Function.update state.todo worker (state.todo worker).tail other,
          pkg ∈ split other := by
        intro other pkg member
        by_cases same : other = worker
        · subst same
          rw [Function.update_self] at member
          exact inv.todo other pkg (List.mem_of_mem_tail member)
        · rw [Function.update_of_ne same] at member
          exact inv.todo other pkg member
      exact { inv with todo := todo }
  · next pc =>
      cases Option.some.inj step
      exact idle .cleanup (Or.inl rfl) state.manifestsLock keep (by simp [pc])
  · next pc =>
      cases Option.some.inj step
      have held := inv.lock worker (by rw [pc]; trivial)
      apply idle .cleanup (Or.inl rfl) none _ (by simp [pc])
      intro other different second
      rw [held] at second
      exact absurd (Option.some.inj second).symm different
  · next pc =>
      cases Option.some.inj step
      exact idle .cleanup (Or.inl rfl) state.manifestsLock keep (by simp [pc])
  · next pc =>
      cases Option.some.inj step
      exact idle .next (Or.inr (Or.inl rfl)) state.manifestsLock keep (by simp [pc])
  · next pc =>
      cases Option.some.inj step
      exact idle .exited (Or.inr (Or.inr rfl)) state.manifestsLock keep (by simp [pc])
  · cases step

end Steps

/-! ## Runs -/

section Runs

variable {Worker : Type} [DecidableEq Worker]

/-- However the steps of the workers and of the parent interleave, the parent's
records give the places of the manifests. -/
theorem fittingRun_recordsRight (readFiles : Bool) (split : Worker → List RepoPackage)
    (events : List (CreateEvent Worker)) (final : CreateState Worker)
    (run : runEvents (createStep readFiles) (CreateState.start split) events = some final)
    (fitting : MeetsAlong (createStep readFiles) FittingRecords (CreateState.start split) events) :
    RecordsRight split final := by
  have invariant : ∃ received flight, CreateInv split final received flight := by
    apply runEvents_invariant _ run fitting ⟨[], fun _ => [], CreateInv.start split⟩
    intro state event next inv careful step
    obtain ⟨received, flight, inv⟩ := inv
    cases event with
    | step worker => exact ⟨received, inv.workerStep careful step⟩
    | fail worker => exact ⟨received, flight, inv.workerFail step⟩
    | poll worker =>
        simp only [createStep, Option.ite_none_right_eq_some] at step
        cases Option.some.inj step.2
        refine ⟨received, flight, inv.parent ?_⟩
        intro other pipe same
        cases same
        rfl
    | read =>
        simp only [createStep] at step
        split at step
        · next worker pipe reading =>
            cases Option.some.inj step
            exact inv.parentRead reading
        · cases step
  obtain ⟨received, flight, inv⟩ := invariant
  exact inv.recordsRight

def shortOrigin : RepoPackage where
  origin := ['b']
  manifest := ['{', '}']
  digest := ['d']
  checksum := ['c']

/-- One worker writes, sends and the parent reads the record of one package. -/
def shortRun : List (CreateEvent Unit) :=
  [.step (), .step (), .step (), .step (), .step (), .step (), .step (), .poll (), .read]

theorem shortRun_recordsRight :
    ∃ final, runEvents (createStep false) (CreateState.start fun _ => [shortOrigin]) shortRun =
        some final ∧ final.dlist.length = 1 ∧ RecordsRight (fun _ => [shortOrigin]) final := by
  refine ⟨_, rfl, by decide, fittingRun_recordsRight false _ shortRun _ rfl ?_⟩
  -- The seventh step is the one that sends.
  iterate 6
    refine ⟨nofun, fun next step => ?_⟩
    cases Option.some.inj step
  refine ⟨?_, fun next step => ?_⟩
  · intro region send
    cases WorkerPc.send.inj send
    exact ⟨by decide, by decide, by decide, by decide⟩
  · cases Option.some.inj step
    exact ⟨trivial, fun next step => ⟨trivial, fun _ _ => trivial⟩⟩

/-- The line of this package does not fit the buffer. -/
def longOrigin : RepoPackage where
  origin := List.replicate 1000 'a'
  manifest := ['{', '}']
  digest := List.replicate 64 'd'
  checksum := List.replicate 64 'c'

/-- The worker sends both records before the parent reads. -/
def longRun : List (CreateEvent Unit) :=
  List.replicate 14 (.step ()) ++ [.poll (), .read, .read]

theorem longRun_not_recordsRight :
    ¬∀ (split : Unit → List RepoPackage) (events : List (CreateEvent Unit))
      (final : CreateState Unit),
      runEvents (createStep false) (CreateState.start split) events = some final →
        RecordsRight split final := by
  intro claim
  have digests : (runEvents (createStep false)
      (CreateState.start fun _ : Unit => [longOrigin, shortOrigin]) longRun).map
        (fun final => final.dlist.map DigestEntry.digest) = some [some ['2']] := by
    decide +kernel
  obtain ⟨final, run, dlist⟩ := Option.map_eq_some_iff.mp digests
  obtain ⟨entry, rest, entries, digest, none⟩ := List.map_eq_cons_iff.mp dlist
  obtain ⟨_, pkg, member, _, same, _⟩ := (claim _ longRun final run).right entry
    (by rw [entries]; exact List.mem_cons_self)
  rw [digest] at same
  rcases List.mem_pair.mp member with rfl | rfl
  · exact absurd same (by decide)
  · exact absurd same (by decide)

end Runs

end Pkgng
