import Mathlib.Data.List.Basic
import Pkgng.PkgObject.Calls

/-!
# What an upgrade removes

`pkg_add_upgrade` sets `PKG_ADD_UPGRADE`; `pkg_add_cleanup_old` removes what the old package lists
and the new one does not, and asks the same word of flags for `PKG_DELETE_FORCE`.  What a file's
name leads to is a map; scripts may change it.
-/

set_option autoImplicit false

namespace Pkgng

/-- An `unsigned` of flags. -/
abbrev FlagWord := BitVec 32

namespace AddFlag

def upgrade : FlagWord := 1#32 <<< 0
def useUpgradeScripts : FlagWord := 1#32 <<< 1
def automatic : FlagWord := 1#32 <<< 2
def force : FlagWord := 1#32 <<< 3
def noscript : FlagWord := 1#32 <<< 4
def forceMissing : FlagWord := 1#32 <<< 5

end AddFlag

namespace DeleteFlag

def force : FlagWord := 1#32 <<< 0
def upgrade : FlagWord := 1#32 <<< 1
def noscript : FlagWord := 1#32 <<< 2
def conflict : FlagWord := 1#32 <<< 3

end DeleteFlag

inductive DiskNode
  | regular (content : String)
  | symlink (target : String)
  | directory
  | special
deriving DecidableEq, Repr

/-- What the listed names lead to, from the package's root. -/
abbrev Disk := String → Option DiskNode

/-- What the upgrade meets on the system. -/
structure UpgradeEnv where
  /-- `pkg_symlink_cksumat` for a link, otherwise `sha256_fileat`; none is an error. -/
  cksum : DiskNode → Option String
  /-- The directory and the file's own flags let the name be removed. -/
  permits : String → Bool
  /-- The directory is empty, and its removal is permitted. -/
  rmdirs : String → Disk → Bool
  /-- `pkg_script_run`. -/
  runScript : PkgScript → Disk → Epkg × Disk
  /-- `HANDLE_RC_SCRIPTS`, and `pkg_start_stop_rc_scripts`. -/
  handleRc : Bool
  stopRc : Disk → Disk
  /-- What comes before `pkg_add_cleanup_old`; none where `pkg_add_common` has returned. -/
  prepare : FlagWord → Disk → Option Disk

/-- The files and directories of a package. -/
structure PkgContents where
  files : List FileCell := []
  dirs : List DirCell := []

/-- A file that was removed, with what its name led to. -/
structure RemovedFile where
  file : FileCell
  node : DiskNode

section Delete

variable (env : UpgradeEnv)

/-- `unlinkat` takes the name away, but not that of a directory. -/
def UpgradeEnv.unlinks (path : String) (node : DiskNode) : Bool :=
  env.permits path && decide (node ≠ .directory)

def unlinkFile (file : FileCell) (disk : Disk) : List RemovedFile × Disk :=
  match disk file.path with
  | none => ([], disk)
  | some node =>
      if env.unlinks file.path node then
        ([⟨file, node⟩], Function.update disk file.path none)
      else ([], disk)

def pkgDeleteFile (file : FileCell) (force : Nat) (disk : Disk) : List RemovedFile × Disk :=
  if force = 0 ∧ file.sum ≠ "" then
    match disk file.path with
    | none => ([], disk)
    | some node =>
        match env.cksum node with
        | none => ([], disk)
        | some sha256 => if sha256 ≠ file.sum then ([], disk) else unlinkFile env file disk
  else unlinkFile env file disk

def pkgDeleteDir (dir : DirCell) (disk : Disk) : Disk :=
  if disk dir.path = some .directory ∧ env.rmdirs dir.path disk = true then
    Function.update disk dir.path none
  else disk

/-- The loop over the files of the old package. -/
def cleanupFiles (new : PkgContents) (force : Nat) :
    List FileCell → Disk → List RemovedFile × Disk
  | [], disk => ([], disk)
  | f :: rest, disk =>
      if new.files.any fun other => other.path = f.path then cleanupFiles new force rest disk
      else
        let (removed, disk) := pkgDeleteFile env f force disk
        let (later, disk) := cleanupFiles new force rest disk
        (removed ++ later, disk)

/-- The loop over its directories. -/
def cleanupDirs (new : PkgContents) : List DirCell → Disk → Disk
  | [], disk => disk
  | d :: rest, disk =>
      if new.dirs.any fun other => other.path = d.path then cleanupDirs new rest disk
      else cleanupDirs new rest (pkgDeleteDir env d disk)

/-- The start of `pkg_add_cleanup_old`: the services are stopped and the script is run. -/
def cleanupStart (flags : FlagWord) (disk : Disk) : Epkg × Disk :=
  let disk := if env.handleRc then env.stopRc disk else disk
  if flags &&& AddFlag.noscript = 0 then
    env.runScript
      (if flags &&& AddFlag.useUpgradeScripts = AddFlag.useUpgradeScripts then .preUpgrade
        else .preDeinstall) disk
  else (.ok, disk)

def pkgAddCleanupOld (old : PkgContents) (new : Option PkgContents) (flags : FlagWord)
    (disk : Disk) : Epkg × List RemovedFile × Disk :=
  let (ret, disk) := cleanupStart env flags disk
  if ret ≠ .ok then (ret, [], disk)
  else
    match new with
    | none => (ret, [], disk)
    | some new =>
        let force := if flags &&& DeleteFlag.force ≠ 0 then 1 else 0
        let (removed, disk) := cleanupFiles env new force old.files disk
        (ret, removed, cleanupDirs env new old.dirs disk)

/-- `pkg_add_upgrade` up to the return of `pkg_add_cleanup_old`: the files that are removed. -/
def pkgAddUpgrade (flags : FlagWord) (new : Option PkgContents) (old : PkgContents)
    (disk : Disk) : List RemovedFile :=
  let flags := flags ||| AddFlag.upgrade
  match env.prepare flags disk with
  | none => []
  | some disk => (pkgAddCleanupOld env old new flags disk).2.1

end Delete

/-- The content is the recorded one, or none is recorded. -/
def Unmodified (env : UpgradeEnv) (file : FileCell) (node : DiskNode) : Prop :=
  file.sum = "" ∨ env.cksum node = some file.sum

/-- Every file that is removed is one of the old package only, and is not modified. -/
def KeepsModified (env : UpgradeEnv) (flags : FlagWord) (new : PkgContents) (old : PkgContents)
    (disk : Disk) : Prop :=
  ∀ removed ∈ pkgAddUpgrade env flags (some new) old disk,
    removed.file ∈ old.files ∧ (∀ other ∈ new.files, other.path ≠ removed.file.path) ∧
      Unmodified env removed.file removed.node

/-- The disk on which the loop over the files starts, if it is reached. -/
def cleanupDisk (env : UpgradeEnv) (flags : FlagWord) (disk : Disk) : Option Disk :=
  (env.prepare (flags ||| AddFlag.upgrade) disk).bind fun disk =>
    match cleanupStart env (flags ||| AddFlag.upgrade) disk with
    | (.ok, disk) => some disk
    | _ => none

/-- A file that only the old package lists, as the first entry with its path. -/
structure DroppedFile (new : PkgContents) (files : List FileCell) (f : FileCell) : Prop where
  first : files.find? (fun other => other.path = f.path) = some f
  dropped : ∀ other ∈ new.files, other.path ≠ f.path

section Loop

variable {env : UpgradeEnv} {new : PkgContents} {files : List FileCell} {disk : Disk}

theorem unlinkFile_removed {file : FileCell} {removed : RemovedFile} :
    removed ∈ (unlinkFile env file disk).1 ↔
      removed.file = file ∧ disk file.path = some removed.node ∧
        env.unlinks file.path removed.node = true := by
  unfold unlinkFile
  cases found : disk file.path with
  | none => simp
  | some node =>
      obtain ⟨listed, removedNode⟩ := removed
      dsimp only
      by_cases unlinks : env.unlinks file.path node = true
      · rw [if_pos unlinks]
        constructor
        · intro member
          cases List.mem_singleton.mp member
          exact ⟨rfl, rfl, unlinks⟩
        · rintro ⟨rfl, same, _⟩
          cases same
          exact List.mem_singleton_self _
      · rw [if_neg unlinks]
        refine iff_of_false List.not_mem_nil ?_
        rintro ⟨_, same, permitted⟩
        cases same
        exact unlinks permitted

theorem unlinkFile_disk (file : FileCell) (disk : Disk) {path : String}
    (other : path ≠ file.path) : (unlinkFile env file disk).2 path = disk path := by
  unfold unlinkFile
  split
  · rfl
  · split
    · exact Function.update_of_ne other ..
    · rfl

/-- What is still under the name behind an attempt could not be unlinked. -/
theorem unlinkFile_left {file : FileCell} {node : DiskNode}
    (left : (unlinkFile env file disk).2 file.path = some node) :
    env.unlinks file.path node = false := by
  unfold unlinkFile at left
  cases found : disk file.path with
  | none =>
      rw [found] at left
      dsimp only at left
      rw [found] at left
      cases left
  | some there =>
      rw [found] at left
      dsimp only at left
      by_cases unlinks : env.unlinks file.path there = true
      · rw [if_pos unlinks] at left
        dsimp only at left
        rw [Function.update_self] at left
        cases left
      · rw [if_neg unlinks] at left
        dsimp only at left
        rw [found] at left
        cases left
        exact Bool.eq_false_iff.mpr unlinks

/-- With force, the files that the loop removes are those dropped that can be unlinked. -/
theorem cleanupFiles_forced (removed : RemovedFile) :
    removed ∈ (cleanupFiles env new 1 files disk).1 ↔
      DroppedFile new files removed.file ∧ disk removed.file.path = some removed.node ∧
        env.unlinks removed.file.path removed.node = true := by
  induction files generalizing disk with
  | nil =>
      refine iff_of_false List.not_mem_nil fun dropped => ?_
      cases dropped.1.first
  | cons f rest ih =>
      rw [cleanupFiles]
      by_cases listed : new.files.any (fun other => other.path = f.path) = true
      · rw [if_pos listed, ih]
        refine and_congr_left fun _ => ?_
        have apart (dropped : ∀ other ∈ new.files, other.path ≠ removed.file.path) :
            ¬f.path = removed.file.path := by
          obtain ⟨other, member, same⟩ := List.any_eq_true.mp listed
          exact fun samePath => dropped other member ((of_decide_eq_true same).trans samePath)
        constructor
        · rintro ⟨first, dropped⟩
          exact ⟨by rw [List.find?_cons_of_neg (by simpa using apart dropped), first], dropped⟩
        · rintro ⟨first, dropped⟩
          exact ⟨by rwa [List.find?_cons_of_neg (by simpa using apart dropped)] at first, dropped⟩
      · rw [if_neg listed]
        have forced : pkgDeleteFile env f 1 disk = unlinkFile env f disk := if_neg (by simp)
        dsimp only
        rw [forced, List.mem_append, unlinkFile_removed, ih]
        constructor
        · rintro (⟨same, there, unlinks⟩ | ⟨⟨first, dropped⟩, there, unlinks⟩)
          · rw [same]
            refine ⟨⟨List.find?_cons_of_pos (by simp), fun other member samePath => ?_⟩, there,
              unlinks⟩
            exact listed (List.any_eq_true.mpr ⟨other, member, decide_eq_true samePath⟩)
          · have apart : removed.file.path ≠ f.path := by
              intro samePath
              rw [samePath] at there unlinks
              exact Bool.false_ne_true ((unlinkFile_left there).symm.trans unlinks)
            rw [unlinkFile_disk f disk apart] at there
            refine ⟨⟨?_, dropped⟩, there, unlinks⟩
            rw [List.find?_cons_of_neg (by simpa using apart.symm), first]
        · rintro ⟨⟨first, dropped⟩, there, unlinks⟩
          by_cases samePath : f.path = removed.file.path
          · rw [List.find?_cons_of_pos (by simpa using samePath)] at first
            have same : removed.file = f := (Option.some.inj first).symm
            exact Or.inl ⟨same, same ▸ there, same ▸ unlinks⟩
          · rw [List.find?_cons_of_neg (by simpa using samePath)] at first
            rw [← unlinkFile_disk f disk (Ne.symm samePath)] at there
            exact Or.inr ⟨⟨first, dropped⟩, there, unlinks⟩

end Loop

/-- `PKG_DELETE_FORCE` and `PKG_ADD_UPGRADE` are the same bit. -/
theorem upgrade_forces (flags : FlagWord) :
    (flags ||| AddFlag.upgrade) &&& DeleteFlag.force ≠ 0 := by
  intro clear
  have bit := congrArg (fun word => BitVec.getLsbD word 0) clear
  simp [AddFlag.upgrade, DeleteFlag.force] at bit

/-- The removed files of an upgrade whose loop starts on the disk. -/
theorem mem_pkgAddUpgrade {env : UpgradeEnv} {flags : FlagWord} {new old : PkgContents}
    {disk : Disk} (removed : RemovedFile) :
    removed ∈ pkgAddUpgrade env flags (some new) old disk ↔
      ∃ start, cleanupDisk env flags disk = some start ∧
        removed ∈ (cleanupFiles env new 1 old.files start).1 := by
  unfold pkgAddUpgrade cleanupDisk
  cases prepared : env.prepare (flags ||| AddFlag.upgrade) disk with
  | none => simp [prepared]
  | some before =>
      simp only [prepared, Option.bind_some, pkgAddCleanupOld]
      cases started : cleanupStart env (flags ||| AddFlag.upgrade) before with
      | mk ret start =>
          have forced : ¬(flags ||| AddFlag.upgrade) &&& DeleteFlag.force = 0#32 :=
            upgrade_forces flags
          cases ret <;> simp [forced]

/-- Modified files are kept exactly if there are none among the dropped files that can be
unlinked. -/
theorem keepsModified_iff (env : UpgradeEnv) (flags : FlagWord) (new old : PkgContents)
    (disk : Disk) :
    KeepsModified env flags new old disk ↔
      ∀ start, cleanupDisk env flags disk = some start →
        ∀ f node, DroppedFile new old.files f → start f.path = some node →
          env.unlinks f.path node = true → Unmodified env f node := by
  constructor
  · intro keeps start isStart f node dropped there unlinks
    refine (keeps ⟨f, node⟩ ?_).2.2
    rw [mem_pkgAddUpgrade]
    exact ⟨start, isStart, (cleanupFiles_forced _).mpr ⟨dropped, there, unlinks⟩⟩
  · intro unmodified removed member
    obtain ⟨start, isStart, inLoop⟩ := (mem_pkgAddUpgrade removed).mp member
    obtain ⟨dropped, there, unlinks⟩ := (cleanupFiles_forced _).mp inLoop
    exact ⟨List.mem_of_find?_eq_some dropped.first, dropped.dropped,
      unmodified start isStart _ _ dropped there unlinks⟩

/-- A system on which nothing is in the way, and a file's checksum is its content. -/
def plainUpgrade : UpgradeEnv where
  cksum
    | .regular content => some content
    | _ => none
  permits _ := true
  rmdirs _ _ := true
  runScript _ disk := (.ok, disk)
  handleRc := false
  stopRc disk := disk
  prepare _ disk := some disk

/-- A configuration file that was edited is removed without any flag. -/
theorem editedFile_not_kept :
    ¬∀ env flags new old disk, flags &&& AddFlag.force = 0 →
      KeepsModified env flags new old disk := by
  intro all
  have kept := all plainUpgrade 0 {} { files := [⟨"/etc/a.conf", "original", "", "", 0⟩] }
    (fun _ => some (.regular "edited")) (by decide)
    ⟨⟨"/etc/a.conf", "original", "", "", 0⟩, .regular "edited"⟩
  refine absurd (kept ?_).2.2 (by simp [Unmodified, plainUpgrade])
  rw [mem_pkgAddUpgrade]
  refine ⟨_, rfl, (cleanupFiles_forced _).mpr ⟨⟨by simp, by simp⟩, rfl, rfl⟩⟩

end Pkgng
