import Pkgng.Db.Registry
import Pkgng.Install.Extract

/-!
# The disk and the registry

`pkg_add` and `pkg_delete` change the files of a package and its registration.  Here stand the
calls, what a run of them is to respect, and which files they leave.
-/

set_option autoImplicit false

namespace Pkgng

open Lib

/-! ## Removing a package's files -/

section Removal

variable (env : UpgradeEnv)

/-- `pkg_delete_files`. -/
def pkgDeleteFiles (files : List (String × Option String)) (force : Nat) (disk : Disk) : Disk :=
  files.foldl (fun disk file =>
    (pkgDeleteFile env ⟨file.1, file.2.getD "", "", "", 0⟩ force disk).2) disk

/-- `pkg_delete_dirs`. -/
def pkgDeleteDirs (dirs : List String) (disk : Disk) : Disk :=
  dirs.foldl (fun disk path => pkgDeleteDir env ⟨path, "", "", 0, false⟩ disk) disk

end Removal

/-! ## The calls -/

/-- A package with its archive behind the meta files. -/
structure PkgArchive where
  pkg : RegisteredPkg
  entries : List ExtractedEntry

/-- What `pkg_add` meets on the system. -/
structure InstallEnv where
  opened : Epkg := .ok
  valid : Bool := true
  /-- `is_valid_abi`. -/
  validAbi : Bool := true
  /-- The package that is installed is locked. -/
  locked : Bool := false
  /-- The search for the dependencies; those beside the archive are added by calls of their own. -/
  dependencies : Epkg := .ok
  config : RegisterConfig := {}
  disableMtree : Bool := false
  /-- `do_extract_mtree`. -/
  extractMtree : Disk → Epkg × Disk
  /-- `pkg_script_run`, unless the flags leave it out. -/
  preInstall : Disk → Disk
  postInstall : Disk → Disk
  /-- `pkg_start_stop_rc_scripts`, if they are handled. -/
  startRc : Disk → Disk
  extract : ExtractEnv
  removal : UpgradeEnv

structure PkgSystem where
  handle : PkgdbHandle Store
  disk : Disk

/-- `pkg_try_installed` with an origin. -/
def pkgTryInstalled (s : Store) (origin : String) : Bool :=
  s.packages.any fun p => p.columns.origin = origin

/-- `pkg_add_check_pkg_archive`. -/
def pkgAddCheckPkgArchive (env : InstallEnv) (pkg : RegisteredPkg) (force : Bool) (s : Store) :
    Epkg :=
  if env.validAbi = false ∧ force = false then .fatal
  else if pkgTryInstalled s pkg.row.origin ∧ (force = false ∨ env.locked = true) then .installed
  else env.dependencies

section Files

variable (env : InstallEnv) (archive : PkgArchive)

/-- `pkg_open2` has returned `EPKG_END` for an archive of meta files. -/
def extractFiles (disk : Disk) : Epkg × Disk :=
  if archive.entries.isEmpty then (.ok, disk)
  else doExtract env.extract archive.pkg.files.length archive.entries disk

/-- What comes behind the extraction. -/
def finishFiles (extracted : Epkg × Disk) : Epkg × Disk :=
  if extracted.1 ≠ .ok then
    (extracted.1, pkgDeleteDirs env.removal (archive.pkg.dirs.map Prod.fst)
      (pkgDeleteFiles env.removal archive.pkg.files 2 extracted.2))
  else (.ok, env.startRc (env.postInstall extracted.2))

def installBehindMtree (start : Epkg × Disk) : Epkg × Disk :=
  if start.1 ≠ .ok then start
  else finishFiles env archive (extractFiles env archive (env.preInstall start.2))

/-- What `pkg_add_common` does to the disk once the package is registered. -/
def installFiles (disk : Disk) : Epkg × Disk :=
  installBehindMtree env archive
    (if env.disableMtree then (.ok, disk) else env.extractMtree disk)

end Files

/-- `pkg_add` of an archive. -/
def PkgSystem.add (rowIds : RowIds) (env : InstallEnv) (archive : PkgArchive) (force : Bool)
    (s : PkgSystem) : Epkg × PkgSystem :=
  let pkg := archive.pkg
  let checked := pkgAddCheckPkgArchive env pkg force s.handle.conn.now
  if env.opened ≠ .ok then (env.opened, s)
  else if env.valid = false then (.fatal, s)
  else if checked ≠ .ok then (checked, s)
  else
    match pkgdbRegisterPkg (Store.sqlite rowIds) env.config pkg false force s.handle with
    | .error _ handle => (.fatal, { s with handle := handle })
    | .ok _ handle =>
        let (retcode, disk) := installFiles env archive s.disk
        (retcode, ⟨pkgdbRegisterFinale (Store.sqlite rowIds) retcode handle, disk⟩)

section Removed

variable (env : UpgradeEnv) (flags : FlagWord)

/-- `pkg_delete` up to the first script. -/
def beginRemoval (disk : Disk) : Epkg × Disk :=
  let disk := if env.handleRc then env.stopRc disk else disk
  if flags &&& DeleteFlag.noscript = 0 then
    env.runScript (if flags &&& DeleteFlag.upgrade ≠ 0 then .preUpgrade else .preDeinstall) disk
  else (.ok, disk)

/-- The files and the second script. -/
def removeListed (p : Installed) (disk : Disk) : Epkg × Disk :=
  let disk := pkgDeleteFiles env p.files (if flags &&& DeleteFlag.force ≠ 0 then 1 else 0) disk
  if flags &&& (DeleteFlag.noscript ||| DeleteFlag.upgrade) = 0 then
    env.runScript .postDeinstall disk
  else (.ok, disk)

/-- What `pkg_delete` does to the disk, and whether it comes to `pkgdb_unregister_pkg`. -/
def removeFiles (p : Installed) (disk : Disk) : Bool × Disk :=
  let begun := beginRemoval env flags disk
  if begun.1 ≠ .ok then (false, begun.2)
  else
    let listed := removeListed env flags p begun.2
    if listed.1 ≠ .ok then (false, listed.2)
    else (true, pkgDeleteDirs env ((p.links .directory).map Prod.fst) listed.2)

end Removed

/-- `pkg_delete` of the package with this id, with its files as they can be loaded. -/
def PkgSystem.delete (env : UpgradeEnv) (locked : Bool) (flags : FlagWord) (id : Int)
    (s : PkgSystem) : PkgSystem :=
  match s.handle.conn.now.registry id with
  | none => s
  | some p =>
      if locked then s
      else
        let (removed, disk) := removeFiles env flags p s.disk
        if removed then
          ⟨{ s.handle with
              conn := s.handle.conn.write (s.handle.conn.now.pkgdbUnregisterPkg id) }, disk⟩
        else { s with disk := disk }

inductive SystemEvent
  | add (env : InstallEnv) (archive : PkgArchive) (force : Bool)
  | delete (env : UpgradeEnv) (locked : Bool) (flags : FlagWord) (id : Int)
  /-- `pkgdb_close` and `pkgdb_open`. -/
  | reopen
  /-- Someone else changes what a name leads to. -/
  | change (path : String) (node : Option DiskNode)

def SystemEvent.run (rowIds : RowIds) (s : PkgSystem) : SystemEvent → PkgSystem
  | .add env archive force => (s.add rowIds env archive force).2
  | .delete env locked flags id => s.delete env locked flags id
  | .reopen => { s with handle := { conn := .connect s.handle.conn.committed } }
  | .change path node => { s with disk := Function.update s.disk path node }

def systemStep (rowIds : RowIds) (s : PkgSystem) (event : SystemEvent) : Option PkgSystem :=
  some (event.run rowIds s)

/-! ## What the runs are to respect -/

section Conditions

variable (cksum : DiskNode → Option String) (managed : String → Prop)

/-- The file is there, with its checksum if one is recorded. -/
def FilePlaced (disk : Disk) (file : String × Option String) : Prop :=
  ∃ node, disk file.1 = some node ∧ node ≠ .directory ∧
    ∀ sum, file.2 = some sum → cksum node = some sum

/-- The files of all registered packages are there. -/
def InPlace (r : Registry) (disk : Disk) : Prop :=
  ∀ id p, r id = some p → ∀ file ∈ p.files, FilePlaced cksum disk file

/-- The names that packages list are left alone. -/
def Harmless (change : Disk → Disk) : Prop :=
  ∀ disk path, managed path → change disk path = disk path

/-- The archive holds the files that the package lists, and no others. -/
structure PkgArchive.Delivers (archive : PkgArchive) : Prop where
  listed : ∀ file ∈ archive.pkg.files, managed file.1
  delivered : ∀ file ∈ archive.pkg.files, ∃ entry ∈ archive.entries, entry.path = file.1 ∧
    entry.node ≠ .directory ∧ ∀ sum, file.2 = some sum → cksum entry.node = some sum
  within : ∀ entry ∈ archive.entries, entry.node ≠ .directory →
    entry.path ∈ archive.pkg.files.map Prod.fst
  distinct : (archive.entries.map ExtractedEntry.path).Nodup

/-- The scripts keep away from the files of packages, and the random names are new. -/
structure InstallEnv.Careful (env : InstallEnv) (archive : PkgArchive) : Prop where
  mtree : Harmless managed fun disk => (env.extractMtree disk).2
  preInstall : Harmless managed env.preInstall
  postInstall : Harmless managed env.postInstall
  startRc : Harmless managed env.startRc
  unmanaged : ∀ k, ¬managed (env.extract.suffixed k)
  fresh : ∀ k, ∀ entry ∈ archive.entries, env.extract.suffixed k ≠ entry.path
  strict : env.config.developerMode = true ∨ env.config.permissive = false

structure CarefulRemoval (env : UpgradeEnv) : Prop where
  stopRc : Harmless managed env.stopRc
  scripts : ∀ script, Harmless managed fun disk => (env.runScript script disk).2
  /-- A package whose last script fails stays registered without its files. -/
  succeeds : ∀ disk, (env.runScript .postDeinstall disk).1 = .ok

/-- What is asked of an event: nothing is forced in, the handle of a removal has not been left
within a transaction, and others do not touch what is registered. -/
def SystemEvent.Careful (s : PkgSystem) : SystemEvent → Prop
  | .add env archive force =>
      force = false ∧ archive.Delivers cksum managed ∧ env.Careful managed archive
  | .delete env _ _ _ => s.handle.conn.savepoint = none ∧ CarefulRemoval managed env
  | .reopen => True
  | .change path _ => ¬s.handle.ledger.registry.Owns path

end Conditions

/-! ## What removals keep -/

section Kept

variable {env : UpgradeEnv} {disk : Disk} {path : String}

theorem pkgDeleteFile_other {file : FileCell} {force : Nat} (other : path ≠ file.path) :
    (pkgDeleteFile env file force disk).2 path = disk path := by
  unfold pkgDeleteFile
  split
  · split
    · rfl
    · split
      · rfl
      · split
        · rfl
        · exact unlinkFile_disk file disk other
  · exact unlinkFile_disk file disk other

theorem pkgDeleteFiles_other {files : List (String × Option String)} {force : Nat}
    (other : path ∉ files.map Prod.fst) :
    pkgDeleteFiles env files force disk path = disk path := by
  unfold pkgDeleteFiles
  induction files generalizing disk with
  | nil => rfl
  | cons file rest ih =>
      rw [List.map_cons, List.mem_cons, not_or] at other
      rw [List.foldl_cons, ih other.2]
      exact pkgDeleteFile_other other.1

/-- Only directories are removed with the directories of a package. -/
theorem pkgDeleteDirs_file {dirs : List String} {node : DiskNode} (file : node ≠ .directory)
    (there : disk path = some node) : pkgDeleteDirs env dirs disk path = some node := by
  unfold pkgDeleteDirs
  induction dirs generalizing disk with
  | nil => exact there
  | cons dir rest ih =>
      rw [List.foldl_cons]
      apply ih
      unfold pkgDeleteDir
      split
      · next removed =>
          rw [Function.update_of_ne]
          · exact there
          · rintro rfl
            rw [there] at removed
            exact file (Option.some.inj removed.1)
      · exact there

end Kept

theorem FilePlaced.kept {cksum : DiskNode → Option String} {disk disk' : Disk}
    {file : String × Option String} (placed : FilePlaced cksum disk file)
    (kept : ∀ node, node ≠ .directory → disk file.1 = some node → disk' file.1 = some node) :
    FilePlaced cksum disk' file := by
  obtain ⟨node, there, isFile, sums⟩ := placed
  exact ⟨node, kept node isFile there, isFile, sums⟩

section Install

variable {cksum : DiskNode → Option String} {managed spared : String → Prop} {env : InstallEnv}
  {archive : PkgArchive} {disk : Disk}

theorem doExtract_kept (delivers : archive.Delivers cksum managed)
    (careful : env.Careful spared archive) (nfiles : Nat) {path : String} {node : DiskNode}
    (isSpared : spared path) (other : path ∉ archive.pkg.files.map Prod.fst)
    (there : disk path = some node) :
    (doExtract env.extract nfiles archive.entries disk).2 path = some node := by
  unfold doExtract
  split
  · exact there
  · refine (extractLoop_sameBut archive.entries 0 disk path (by rw [there]; exact Option.some_ne_none _) ?_).trans there
    rintro (⟨k, rfl⟩ | ⟨entry, member, isFile, rfl⟩)
    · exact careful.unmanaged k isSpared
    · exact other (delivers.within entry member isFile)

theorem doExtract_placed (delivers : archive.Delivers cksum managed)
    (careful : env.Careful managed archive) {file : String × Option String}
    (member : file ∈ archive.pkg.files)
    (whole : (doExtract env.extract archive.pkg.files.length archive.entries disk).1 = .ok) :
    FilePlaced cksum (doExtract env.extract archive.pkg.files.length archive.entries disk).2
      file := by
  obtain ⟨entry, listed, path, isFile, sums⟩ := delivers.delivered file member
  have some : archive.pkg.files.length ≠ 0 := fun none => by
    rw [List.eq_nil_of_length_eq_zero none] at member
    cases member
  unfold doExtract at whole ⊢
  rw [if_neg some] at whole ⊢
  have ended : (extractLoop env.extract 0 archive.entries disk).1 = true := by
    by_contra failed
    rw [Bool.not_eq_true] at failed
    dsimp only at whole
    rw [failed] at whole
    cases whole
  have placed := extractLoop_placed delivers.distinct careful.fresh ended listed
  rw [path] at placed
  exact ⟨entry.node, placed, isFile, sums⟩

/-- Whether it succeeds or not, an installation leaves the files of other packages. -/
theorem installFiles_kept (delivers : archive.Delivers cksum managed)
    (careful : env.Careful spared archive) {path : String} {node : DiskNode}
    (isSpared : spared path) (other : path ∉ archive.pkg.files.map Prod.fst)
    (isFile : node ≠ .directory) (there : disk path = some node) :
    (installFiles env archive disk).2 path = some node := by
  have extracted {before : Disk} (there : before path = some node) :
      (extractFiles env archive before).2 path = some node := by
    unfold extractFiles
    split
    · exact there
    · exact doExtract_kept delivers careful _ isSpared other there
  have finished {out : Epkg × Disk} (there : out.2 path = some node) :
      (finishFiles env archive out).2 path = some node := by
    unfold finishFiles
    split
    · exact pkgDeleteDirs_file isFile ((pkgDeleteFiles_other other).trans there)
    · exact ((careful.startRc _ path isSpared).trans
        (careful.postInstall _ path isSpared)).trans there
  have behindMtree {start : Epkg × Disk} (there : start.2 path = some node) :
      (installBehindMtree env archive start).2 path = some node := by
    unfold installBehindMtree
    split
    · exact there
    · exact finished (extracted ((careful.preInstall _ path isSpared).trans there))
  apply behindMtree
  split
  · exact there
  · exact (careful.mtree disk path isSpared).trans there

/-- An installation that succeeds has put every file in its place. -/
theorem installFiles_placed (delivers : archive.Delivers cksum managed)
    (careful : env.Careful managed archive) {file : String × Option String}
    (member : file ∈ archive.pkg.files) (success : (installFiles env archive disk).1 = .ok) :
    FilePlaced cksum (installFiles env archive disk).2 file := by
  have isManaged := delivers.listed file member
  have extracted {before : Disk} (success : (extractFiles env archive before).1 = .ok) :
      FilePlaced cksum (extractFiles env archive before).2 file := by
    unfold extractFiles at success ⊢
    split at success
    · next empty =>
        obtain ⟨entry, listed, _⟩ := delivers.delivered file member
        rw [List.isEmpty_iff.mp empty] at listed
        cases listed
    · next some =>
        rw [if_neg some]
        exact doExtract_placed delivers careful member success
  have finished {out : Epkg × Disk} (success : (finishFiles env archive out).1 = .ok)
      (placed : out.1 = .ok → FilePlaced cksum out.2 file) :
      FilePlaced cksum (finishFiles env archive out).2 file := by
    unfold finishFiles at success ⊢
    split at success
    · next failed => exact absurd success failed
    · next whole =>
        rw [if_neg whole]
        refine (placed (not_not.mp whole)).kept fun node _ there => ?_
        exact ((careful.startRc _ _ isManaged).trans
          (careful.postInstall _ _ isManaged)).trans there
  have behindMtree {start : Epkg × Disk}
      (success : (installBehindMtree env archive start).1 = .ok) :
      FilePlaced cksum (installBehindMtree env archive start).2 file := by
    unfold installBehindMtree at success ⊢
    split at success
    · next failed => exact absurd success failed
    · next started =>
        rw [if_neg started]
        exact finished success extracted
  exact behindMtree success

end Install

section Remove

variable {managed : String → Prop} {env : UpgradeEnv} {flags : FlagWord} {p : Installed}
  {disk : Disk} {path : String} {node : DiskNode}

theorem beginRemoval_kept (careful : CarefulRemoval managed env) (isManaged : managed path) :
    (beginRemoval env flags disk).2 path = disk path := by
  have stopped : (if env.handleRc then env.stopRc disk else disk) path = disk path := by
    split
    · exact careful.stopRc disk path isManaged
    · rfl
  have ran (script : PkgScript) (before : Disk) :
      (if flags &&& DeleteFlag.noscript = 0 then env.runScript script before
        else (Epkg.ok, before)).2 path = before path := by
    split
    · exact careful.scripts script before path isManaged
    · rfl
  exact (ran _ _).trans stopped

theorem removeListed_other (careful : CarefulRemoval managed env) (isManaged : managed path)
    (other : path ∉ p.files.map Prod.fst) :
    (removeListed env flags p disk).2 path = disk path := by
  have ran (before : Disk) :
      (if flags &&& (DeleteFlag.noscript ||| DeleteFlag.upgrade) = 0 then
          env.runScript .postDeinstall before
        else (Epkg.ok, before)).2 path = before path := by
    split
    · exact careful.scripts .postDeinstall before path isManaged
    · rfl
  exact (ran _).trans (pkgDeleteFiles_other other)

theorem removeListed_succeeds (careful : CarefulRemoval managed env) :
    (removeListed env flags p disk).1 = .ok := by
  have ran (before : Disk) :
      (if flags &&& (DeleteFlag.noscript ||| DeleteFlag.upgrade) = 0 then
          env.runScript .postDeinstall before
        else (Epkg.ok, before)).1 = .ok := by
    split
    · exact careful.succeeds before
    · rfl
  exact ran _

/-- A removal leaves the files of other packages. -/
theorem removeFiles_other (careful : CarefulRemoval managed env) (isManaged : managed path)
    (other : path ∉ p.files.map Prod.fst) (isFile : node ≠ .directory)
    (there : disk path = some node) : (removeFiles env flags p disk).2 path = some node := by
  have begun : (beginRemoval env flags disk).2 path = some node :=
    (beginRemoval_kept careful isManaged).trans there
  have listed : (removeListed env flags p (beginRemoval env flags disk).2).2 path = some node :=
    (removeListed_other careful isManaged other).trans begun
  unfold removeFiles
  dsimp only
  split
  · exact begun
  · split
    · exact listed
    · exact pkgDeleteDirs_file isFile listed

/-- One that does not come to its end has left all files. -/
theorem removeFiles_stopped (careful : CarefulRemoval managed env) (isManaged : managed path)
    (stopped : (removeFiles env flags p disk).1 = false) :
    (removeFiles env flags p disk).2 path = disk path := by
  unfold removeFiles at stopped ⊢
  dsimp only at stopped ⊢
  split
  · exact beginRemoval_kept careful isManaged
  · next started =>
      rw [if_neg started, if_neg (not_not.mpr (removeListed_succeeds careful))] at stopped
      cases stopped

end Remove

end Pkgng
