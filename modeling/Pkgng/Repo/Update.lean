import Pkgng.Lib.Runs
import Pkgng.Repo.IncrementalExact

/-!
# Runs of the catalogue update

`pkg_repo_binary_update` as a process that reads or changes one file, or executes one
statement, at a time.  A run can fail or be killed between any two of them; what is on
disk stays for the next run.
-/

set_option autoImplicit false

namespace Pkgng

/-! ## What is on disk -/

/-- Ghost: what a committed update took its rows from. -/
structure Release where
  env : UpdateEnv
  legacy : Bool
  lines : List Text
  catalogue : Catalogue

/-- The database of a repository. -/
structure RepoDb where
  /-- `repodata` holds the packagesite. -/
  registered : Bool := false
  /-- The table `repo_update` exists. -/
  repoUpdate : Bool := false
  packages : RepoTable := RepoTable.empty
  mtime : Nat
  /-- Ghost: the last update that was committed into this file. -/
  release : Option Release := none

/-- The file `.meta` of a repository. -/
structure RepoMetaFile where
  /-- The answer of `pkg_repo_meta_load`. -/
  loads : Bool
  mtime : Nat

structure RepoDisk where
  db : Option RepoDb := none
  metaFile : Option RepoMetaFile := none

def RepoDisk.withDb (disk : RepoDisk) (change : RepoDb → RepoDb) : RepoDisk :=
  { disk with db := disk.db.map change }

/-! ## Opening the database -/

/-- What `pkg_repo_binary_open` makes of a database that has its packagesite. -/
inductive OpenResult
  | opens
  | refuses
  /-- The schema version is not supported. -/
  | unlinks
deriving DecidableEq, Repr

/-- `pkg_repo_binary_open` with `R_OK|W_OK`. -/
def pkgRepoBinaryOpen (result : OpenResult) (disk : RepoDisk) : Bool × RepoDisk :=
  if disk.metaFile.any fun file => !file.loads then (false, disk)
  else
    match disk.db with
    | none => (false, disk)
    | some db =>
        if db.registered then
          match result with
          | .opens => (true, disk)
          | .refuses => (false, disk)
          | .unlinks => (false, { disk with db := none })
        else (false, disk)

/-! ## Fetching -/

/-- A file as the server has it; `none` where the archive is refused. -/
structure ServerFile (α : Type) where
  mtime : Nat
  content : Option α

/-- The server's copy is not newer than the time sent; zero is not sent. -/
def ServerFile.NotModified {α : Type} (file : ServerFile α) (t : Nat) : Prop :=
  t ≠ 0 ∧ file.mtime ≤ t

instance {α : Type} (file : ServerFile α) (t : Nat) : Decidable (file.NotModified t) := by
  unfold ServerFile.NotModified
  infer_instance

/-- `pkg_repo_fetch_remote_extract_tmp`: the content, and what `t` is set to.  `none`
stands for a failed fetch. -/
def pkgRepoFetchRemoteExtractTmp {α : Type} (t : Nat) :
    Option (ServerFile α) → Fetched (α × Nat)
  | none => .fatal
  | some file =>
      if file.NotModified t then .uptodate
      else
        match file.content with
        | none => .fatal
        | some content => .file (content, file.mtime)

/-- What `pkg_repo_fetch_meta` does to `.meta`. -/
inductive MetaFetch
  | kept
  | removed
  | extracted (loads : Bool)
deriving DecidableEq, Repr

def MetaFetch.store (clock : Nat) (old : Option RepoMetaFile) : MetaFetch → Option RepoMetaFile
  | .kept => old
  | .removed => none
  | .extracted loads => some { loads, mtime := clock }

/-! ## The process -/

/-- The local variables; `t` is also `*mtime` of the incremental update. -/
structure UpdateVars where
  force : Bool
  gotMeta : Bool := false
  t : Nat := 0

structure UpdateFiles where
  lines : List Text
  catalogue : Catalogue
  legacy : Bool

/-- Where a run stands: the call or the statement it executes next. -/
inductive UpdatePc
  | idle
  | verify (force : Bool)
  | stat (force : Bool)
  | fetchMeta (vars : UpdateVars)
  | fetchDigests (vars : UpdateVars)
  | fetchManifests (vars : UpdateVars) (digestT : Nat) (lines : List Text)
  | initOpen (vars : UpdateVars) (files : UpdateFiles)
  | initUnlink (vars : UpdateVars) (files : UpdateFiles)
  | create (vars : UpdateVars) (files : UpdateFiles)
  | register (vars : UpdateVars) (files : UpdateFiles)
  | reopen (vars : UpdateVars) (files : UpdateFiles)
  | updateCheck (vars : UpdateVars) (files : UpdateFiles)
  | updateStart (vars : UpdateVars) (files : UpdateFiles)
  | rows (vars : UpdateVars) (files : UpdateFiles)
  | updateFinish (vars : UpdateVars)
  | utimes (vars : UpdateVars)
  | utimesMeta (vars : UpdateVars)
  | returned (rc : RepoRc)

/-- What a run meets in one step; each step reads only some of it. -/
structure UpdateAnswer where
  env : UpdateEnv
  /-- The system call or the statement succeeds. -/
  succeeds : Bool := true
  /-- The time written to a changed file. -/
  clock : Nat := 0
  opened : OpenResult := .opens
  metaFetch : MetaFetch := .kept
  digests : Option (ServerFile (List Text)) := none
  manifests : Option (ServerFile Catalogue) := none

structure RepoState where
  disk : RepoDisk := {}
  pc : UpdatePc := .idle

namespace RepoState

def goto (state : RepoState) (pc : UpdatePc) : RepoState := { state with pc }

@[simp] theorem goto_disk (state : RepoState) (pc : UpdatePc) :
    (state.goto pc).disk = state.disk := rfl

@[simp] theorem goto_pc (state : RepoState) (pc : UpdatePc) : (state.goto pc).pc = pc := rfl

/-- The begin of `pkg_repo_binary_update_incremental`. -/
def incremental (state : RepoState) (vars : UpdateVars) : RepoState :=
  state.goto (.fetchMeta { vars with t := if vars.force then 0 else vars.t })

/-- The begin of `pkg_repo_binary_init_update`. -/
def initUpdate (state : RepoState) (vars : UpdateVars) (files : UpdateFiles) : RepoState :=
  if vars.force then state.goto (.initUnlink vars files) else state.goto (.initOpen vars files)

/-- A step of the run; `none` where there is none. -/
def exec (answer : UpdateAnswer) (state : RepoState) : Option RepoState :=
  match state.pc with
  | .idle => none
  | .verify force =>
      let (opens, disk) := pkgRepoBinaryOpen answer.opened state.disk
      if opens then some ⟨disk, .stat force⟩
      else some (incremental ⟨disk, .idle⟩ { force := true })
  | .stat force =>
      let time := match state.disk.metaFile with
        | some file => file.mtime
        | none => (state.disk.db.map RepoDb.mtime).getD 0
      some (state.incremental
        { force
          gotMeta := state.disk.metaFile.isSome
          t := if force then 0 else time })
  | .fetchMeta vars =>
      some
        { disk :=
            { state.disk with
              metaFile := answer.metaFetch.store answer.clock state.disk.metaFile }
          pc := .fetchDigests vars }
  | .fetchDigests vars =>
      match pkgRepoFetchRemoteExtractTmp vars.t answer.digests with
      | .uptodate => some (state.goto (.returned .uptodate))
      | .fatal => some (state.goto (.returned .fatal))
      | .file (lines, digestT) => some (state.goto (.fetchManifests vars digestT lines))
  | .fetchManifests vars digestT lines =>
      match pkgRepoFetchRemoteExtractTmp vars.t answer.manifests with
      | .uptodate => some (state.goto (.returned .uptodate))
      | .fatal => some (state.goto (.returned .fatal))
      | .file (catalogue, _) =>
          match legacyRepo answer.env lines with
          | none => some (state.goto (.returned .fatal))
          | some legacy =>
              some (state.initUpdate { vars with t := digestT } { lines, catalogue, legacy })
  | .initOpen vars files =>
      let (opens, disk) := pkgRepoBinaryOpen answer.opened state.disk
      if opens then some ⟨disk, .updateCheck vars files⟩
      else some ⟨disk, .initUnlink vars files⟩
  | .initUnlink vars files =>
      some
        { disk := if answer.succeeds then { state.disk with db := none } else state.disk
          pc := .create vars files }
  | .create vars files =>
      if state.disk.db.isSome then some (state.goto (.returned .fatal))
      else if answer.succeeds then
        some
          { disk := { state.disk with db := some { mtime := answer.clock } }
            pc := .register vars files }
      else some (state.goto (.returned .fatal))
  | .register vars files =>
      if answer.succeeds then
        some
          { disk := state.disk.withDb fun db =>
              { db with registered := true, mtime := answer.clock }
            pc := .reopen vars files }
      else some (state.goto (.returned .fatal))
  | .reopen vars files =>
      let (opens, disk) := pkgRepoBinaryOpen answer.opened state.disk
      if opens then some ⟨disk, .updateCheck vars files⟩
      else some ⟨disk, .returned .fatal⟩
  | .updateCheck vars files =>
      -- The insertion into `repo_update` fails without the table.
      if answer.succeeds && state.disk.db.any RepoDb.repoUpdate then
        some (incremental
          ⟨state.disk.withDb fun db => { db with mtime := answer.clock }, .idle⟩
          { vars with force := true })
      else some (state.goto (.updateStart vars files))
  | .updateStart vars files =>
      some
        { disk :=
            if answer.succeeds then
              state.disk.withDb fun db => { db with repoUpdate := true, mtime := answer.clock }
            else state.disk
          pc := .rows vars files }
  | .rows vars files =>
      match state.disk.db with
      | none => none
      | some db =>
          let (rc, packages) :=
            updateRows answer.env files.legacy files.lines files.catalogue db.packages
          let release : Release :=
            { env := answer.env, legacy := files.legacy, lines := files.lines
              catalogue := files.catalogue }
          some
            { disk := state.disk.withDb fun db =>
                { db with
                  packages := packages.settled
                  mtime := answer.clock
                  release := if rc = .ok then some release else db.release }
              pc := if rc = .ok then .updateFinish vars else .returned rc }
  | .updateFinish vars =>
      some
        { disk :=
            if answer.succeeds then
              state.disk.withDb fun db => { db with repoUpdate := false, mtime := answer.clock }
            else state.disk
          pc := if vars.t ≠ 0 then .utimes vars else .returned .ok }
  | .utimes vars =>
      some
        { disk :=
            if answer.succeeds then state.disk.withDb fun db => { db with mtime := vars.t }
            else state.disk
          pc := if vars.gotMeta then .utimesMeta vars else .returned .ok }
  | .utimesMeta vars =>
      some
        { disk :=
            if answer.succeeds then
              { state.disk with
                metaFile := state.disk.metaFile.map fun file => { file with mtime := vars.t } }
            else state.disk
          pc := .returned .ok }
  | .returned _ => none

/-- No run is under way. -/
def Rests (state : RepoState) : Bool :=
  match state.pc with
  | .idle => true
  | .returned _ => true
  | _ => false

end RepoState

inductive RepoEvent
  /-- `pkg_repo_binary_update` is called. -/
  | update (enabled force : Bool)
  | exec (answer : UpdateAnswer)
  | kill

/-- One event; `none` where it cannot happen. -/
def repoStep (state : RepoState) : RepoEvent → Option RepoState
  | .update enabled force =>
      if state.Rests then
        if enabled then some (state.goto (.verify force))
        else some (state.goto (.returned .ok))
      else none
  | .exec answer => state.exec answer
  | .kill => if state.Rests then none else some (state.goto .idle)

end Pkgng
