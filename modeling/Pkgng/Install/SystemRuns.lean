import Pkgng.Install.System
import Pkgng.Lib.Runs

/-!
# The disk over the registry

Over every run of `pkg_add` and `pkg_delete`, however they end, with other changes of the disk
between them, the files of what is registered are in place.
-/

set_option autoImplicit false

namespace Pkgng

open Lib

/-! ## The calls on the registry -/

section Calls

variable {rowIds : RowIds} {s : PkgSystem}

/-- What the registration is told about the rest of the call. -/
def InstallEnv.answers (env : InstallEnv) (archive : PkgArchive) (force : Bool) (s : PkgSystem) :
    AddEnv where
  opened := env.opened
  valid := env.valid
  checked := pkgAddCheckPkgArchive env archive.pkg force s.handle.conn.now
  disableMtree := true
  extract := (installFiles env archive s.disk).1
  config := env.config

theorem PkgSystem.add_eq (env : InstallEnv) (archive : PkgArchive) (force : Bool) :
    ((s.add rowIds env archive force).1, (s.add rowIds env archive force).2.handle) =
      RegistryCall.run rowIds (.add (env.answers archive force s) archive.pkg force) s.handle := by
  unfold PkgSystem.add RegistryCall.run pkgAdd InstallEnv.answers
  dsimp only
  split
  · rfl
  split
  · rfl
  split
  · rfl
  split
  · next failed => rw [failed]
  · next returned =>
      rw [returned]
      simp only [ne_eq, not_true_eq_false, and_false, if_false, if_true, Bool.false_eq_true]

/-- The disk changes only behind a registration that has returned. -/
theorem PkgSystem.add_disk (env : InstallEnv) (archive : PkgArchive) (force : Bool) :
    (s.add rowIds env archive force).2.disk = s.disk ∧
        (s.add rowIds env archive force).1 ≠ .ok ∨
      pkgAddCheckPkgArchive env archive.pkg force s.handle.conn.now = .ok ∧
      (∃ handle, pkgdbRegisterPkg (Store.sqlite rowIds) env.config archive.pkg false force
        s.handle = .ok () handle) ∧
      (s.add rowIds env archive force).2.disk = (installFiles env archive s.disk).2 ∧
        (s.add rowIds env archive force).1 = (installFiles env archive s.disk).1 := by
  unfold PkgSystem.add
  dsimp only
  split
  · next notOpened => exact Or.inl ⟨rfl, notOpened⟩
  split
  · exact Or.inl ⟨rfl, Epkg.noConfusion⟩
  split
  · next refused => exact Or.inl ⟨rfl, refused⟩
  next accepted =>
    split
    · exact Or.inl ⟨rfl, Epkg.noConfusion⟩
    · next handle registered =>
        exact Or.inr ⟨not_not.mp accepted, ⟨handle, registered⟩, rfl, rfl⟩

theorem Store.registry_origin {store : Store} {id : Int} {p : Installed}
    (loaded : store.registry id = some p) :
    ∃ stored ∈ store.packages, p.row.origin = stored.columns.origin := by
  obtain ⟨stored, found, rfl⟩ := Option.map_eq_some_iff.mp loaded
  exact ⟨stored, List.mem_of_find?_eq_some found, rfl⟩

/-- Without force a package with the origin is not installed. -/
theorem notInstalled_of_checked {env : InstallEnv} {pkg : RegisteredPkg} {store : Store}
    (checked : pkgAddCheckPkgArchive env pkg false store = .ok) {id : Int} {p : Installed}
    (loaded : store.registry id = some p) : p.row.origin ≠ pkg.row.origin := by
  unfold pkgAddCheckPkgArchive at checked
  split at checked
  · cases checked
  split at checked
  · cases checked
  next free =>
    intro same
    obtain ⟨stored, member, origin⟩ := Store.registry_origin loaded
    refine free ⟨List.any_eq_true.mpr ⟨stored, member, ?_⟩, Or.inl rfl⟩
    exact decide_eq_true (origin.symm.trans same)

/-- Room for a package with a new origin is made without removing one. -/
theorem Registry.owns_makeRoom {r : Registry} {row : PkgColumns}
    (new : ∀ id p, r id = some p → p.row.origin ≠ row.origin) {path : String}
    (owns : r.Owns path) : (r.makeRoom row).Owns path := by
  obtain ⟨id, p, loaded, listed⟩ := owns
  refine ⟨id, p.renameDeps row.name row.version row.origin, ?_, listed⟩
  have stays : p.sameUid row = false := by
    rw [Installed.sameUid, decide_eq_false (new id p loaded)]
    rfl
  rw [Registry.makeRoom, Registry.map, Registry.remove, loaded, Option.filter_some, stays]
  rfl

theorem Registry.makeRoom_files {r : Registry} {row : PkgColumns} {id : Int} {p' : Installed}
    (loaded : r.makeRoom row id = some p') : ∃ p, r id = some p ∧ p'.files = p.files := by
  obtain ⟨q, found, rfl⟩ := Option.map_eq_some_iff.mp loaded
  obtain ⟨there, _⟩ := Option.filter_eq_some_iff.mp found
  exact ⟨q, there, rfl⟩

/-- A package behind a registration has the files of the new one, or those it had before. -/
theorem Registry.register_files {r : Registry} {pkg : RegisteredPkg} {id other : Int}
    {p : Installed} (files : (r.makeRoom pkg.row).unowned pkg.files = pkg.files)
    (loaded : r.register pkg id other = some p) :
    p.files = pkg.files ∨ ∃ q, r other = some q ∧ p.files = q.files := by
  rw [Registry.register, Registry.set] at loaded
  split at loaded
  · cases loaded
    exact Or.inl files
  · exact Or.inr (Registry.makeRoom_files loaded)

/-- The files of a package whose registration has returned belong to no other package. -/
theorem registered_free {config : RegisterConfig} {pkg : RegisteredPkg}
    {h handle : PkgdbHandle Store} (consistent : h.Consistent)
    (returned : pkgdbRegisterPkg (Store.sqlite rowIds) config pkg false false h = .ok () handle)
    (strict : config.developerMode = true ∨ config.permissive = false)
    (new : ∀ id p, h.conn.now.registry id = some p → p.row.origin ≠ pkg.row.origin) :
    h.conn.savepoint = none ∧
      ∀ path, h.ledger.registry.Owns path → path ∉ pkg.files.map Prod.fst := by
  have idle : h.conn.savepoint = none := by
    by_contra inside
    rw [pkgdbRegisterPkg_begins] at returned
    obtain ⟨_, _, begins, _⟩ := bind_ok returned
    rw [pkgdbTransactionBegin_open inside] at begins
    cases begins
  refine ⟨idle, fun path owns listed => ?_⟩
  obtain ⟨_, _, effect⟩ := finale_registered consistent idle returned .ok
  rw [if_pos rfl] at effect
  have unowned := effect.2 rfl strict
  have room : (h.ledger.registry.makeRoom pkg.row).Owns path := by
    refine Registry.owns_makeRoom (fun id p loaded => new id p ?_) owns
    rw [consistent.now idle]
    exact loaded
  refine (Registry.unowned_spec (h.ledger.registry.makeRoom pkg.row) pkg.files).2.2 path ?_ room
  rw [unowned]
  exact listed

end Calls

/-! ## What every call keeps -/

section Invariant

variable {rowIds : RowIds} {cksum : DiskNode → Option String} {managed : String → Prop}
  {s : PkgSystem}

structure SystemInv (cksum : DiskNode → Option String) (managed : String → Prop) (s : PkgSystem) :
    Prop where
  consistent : s.handle.Consistent
  grounded : ∃ history, s.handle.ledger.registry.Grounded history
  owned : ∀ path, s.handle.ledger.registry.Owns path → managed path
  inPlace : InPlace cksum s.handle.ledger.registry s.disk

theorem Registry.owns_of_mem {r : Registry} {id : Int} {p : Installed} (loaded : r id = some p)
    {file : String × Option String} (member : file ∈ p.files) : r.Owns file.1 :=
  ⟨id, p, loaded, List.mem_map_of_mem member⟩

theorem InPlace.kept {r : Registry} {disk disk' : Disk} (placed : InPlace cksum r disk)
    (kept : ∀ path node, r.Owns path → node ≠ .directory → disk path = some node →
      disk' path = some node) : InPlace cksum r disk' :=
  fun id p loaded file member => (placed id p loaded file member).kept fun node isFile there =>
    kept file.1 node (Registry.owns_of_mem loaded member) isFile there

theorem add_inv (inv : SystemInv cksum managed s) {env : InstallEnv} {archive : PkgArchive}
    (delivers : archive.Delivers cksum managed) (careful : env.Careful managed archive) :
    SystemInv cksum managed (s.add rowIds env archive false).2 := by
  obtain ⟨consistent, step⟩ := @add_step rowIds _ (env.answers archive false s)
    archive.pkg false inv.consistent
  rw [← PkgSystem.add_eq] at consistent step
  obtain ⟨history, grounded⟩ := inv.grounded
  have grounded' := step.grounded grounded
  rw [Ledger.Step] at step
  generalize hAfter : (s.add rowIds env archive false).2 = after at *
  generalize hCode : (s.add rowIds env archive false).1 = code at *
  have disk := @PkgSystem.add_disk rowIds s env archive false
  rw [hAfter, hCode] at disk
  have unchanged (same : after.handle.ledger.registry = s.handle.ledger.registry)
      (placed : InPlace cksum s.handle.ledger.registry after.disk) :
      SystemInv cksum managed after :=
    ⟨consistent, ⟨_, grounded'⟩, by rw [same]; exact inv.owned, by rw [same]; exact placed⟩
  rcases disk with ⟨same, failed⟩ | ⟨checked, ⟨handle, returned⟩, changed, result⟩
  · rw [if_neg failed] at step
    exact unchanged step.1 (by rw [same]; exact inv.inPlace)
  · obtain ⟨idle, free⟩ := registered_free inv.consistent returned careful.strict fun id p loaded =>
      notInstalled_of_checked checked loaded
    have others : InPlace cksum s.handle.ledger.registry after.disk := by
      refine inv.inPlace.kept fun path node owns isFile there => ?_
      rw [changed]
      exact installFiles_kept delivers careful (inv.owned path owns) (free path owns) isFile there
    by_cases success : code = .ok
    · rw [if_pos success] at step
      obtain ⟨⟨id, _, registered⟩, recorded⟩ := step.2.2
      have files := recorded rfl careful.strict
      refine ⟨consistent, ⟨_, grounded'⟩, ?_, ?_⟩
      · rintro path ⟨other, p, loaded, listed⟩
        rw [registered] at loaded
        rcases Registry.register_files files loaded with new | ⟨q, old, same⟩
        · rw [new] at listed
          obtain ⟨file, member, rfl⟩ := List.mem_map.mp listed
          exact delivers.listed file member
        · rw [same] at listed
          exact inv.owned path ⟨other, q, old, listed⟩
      · intro other p loaded file member
        rw [registered] at loaded
        rcases Registry.register_files files loaded with new | ⟨q, old, same⟩
        · rw [changed]
          exact installFiles_placed delivers careful (new ▸ member) (result.symm.trans success)
        · exact others other q old file (same ▸ member)
    · rw [if_neg success] at step
      exact unchanged step.1 others

theorem delete_inv (inv : SystemInv cksum managed s) {env : UpgradeEnv} {locked : Bool}
    {flags : FlagWord} {id : Int} (idle : s.handle.conn.savepoint = none)
    (careful : CarefulRemoval managed env) :
    SystemInv cksum managed (s.delete env locked flags id) := by
  unfold PkgSystem.delete
  split
  · exact inv
  next p loaded =>
    rw [inv.consistent.now idle] at loaded
    split
    · exact inv
    dsimp only
    split
    · obtain ⟨consistent, step⟩ := @unregister_step RowIds.max _ id inv.consistent
      obtain ⟨history, grounded⟩ := inv.grounded
      have grounded' := step.grounded grounded
      have notStuck : s.handle.ledger.stuck = false := by
        rw [PkgdbHandle.ledger, idle]
        rfl
      obtain ⟨_, _, registry⟩ := step
      rw [notStuck, if_neg Bool.false_ne_true] at registry
      have stays : ∀ other q, s.handle.ledger.registry.remove (fun other _ => other = id) other =
          some q → other ≠ id ∧ s.handle.ledger.registry other = some q := by
        intro other q loaded
        obtain ⟨there, stays⟩ := Option.filter_eq_some_iff.mp loaded
        simp only [Bool.not_eq_true', decide_eq_false_iff_not] at stays
        exact ⟨stays, there⟩
      refine ⟨consistent, ⟨_, grounded'⟩, ?_, ?_⟩
      · rintro path ⟨other, q, there, listed⟩
        replace there := (congrFun registry other).symm.trans there
        exact inv.owned path ⟨other, q, (stays other q there).2, listed⟩
      · intro other q there file member
        replace there := (congrFun registry other).symm.trans there
        obtain ⟨apart, before⟩ := stays other q there
        refine (inv.inPlace other q before file member).kept fun node isFile there => ?_
        refine removeFiles_other careful
          (inv.owned file.1 (Registry.owns_of_mem before member)) (fun listed => ?_) isFile there
        exact apart (grounded.owner other q id p file.1 before loaded
          (List.mem_map_of_mem member) listed)
    · next stopped =>
        refine ⟨inv.consistent, inv.grounded, inv.owned, ?_⟩
        refine inv.inPlace.kept fun path node owns _ there => ?_
        exact (removeFiles_stopped careful (inv.owned path owns)
          (Bool.eq_false_iff.mpr stopped)).trans there

theorem systemStep_inv {event : SystemEvent} {after : PkgSystem} (inv : SystemInv cksum managed s)
    (careful : event.Careful cksum managed s) (step : systemStep rowIds s event = some after) :
    SystemInv cksum managed after := by
  cases step
  cases event with
  | add env archive force =>
      obtain ⟨rfl, delivers, envCareful⟩ := careful
      exact add_inv inv delivers envCareful
  | delete env locked flags id => exact delete_inv inv careful.1 careful.2
  | reopen =>
      exact ⟨⟨inv.consistent.sound, fun _ => rfl⟩, inv.grounded, inv.owned, inv.inPlace⟩
  | change path node =>
      refine ⟨inv.consistent, inv.grounded, inv.owned, ?_⟩
      refine inv.inPlace.kept fun other _ owns _ there => ?_
      refine (Function.update_of_ne ?_ ..).trans there
      rintro rfl
      exact careful owns

/-- The event leaves the name alone, as far as it is not for a package to list it. -/
def SystemEvent.Spares (path : String) : SystemEvent → Prop
  | .add env archive _ => env.Careful (· = path) archive
  | .delete env _ _ _ => CarefulRemoval (· = path) env
  | .reopen => True
  | .change other _ => other ≠ path

theorem systemStep_spares {event : SystemEvent} {after : PkgSystem} {path : String}
    {node : DiskNode} (inv : SystemInv cksum managed s) (careful : event.Careful cksum managed s)
    (spares : event.Spares path) (unlisted : ¬managed path) (isFile : node ≠ .directory)
    (there : s.disk path = some node) (step : systemStep rowIds s event = some after) :
    after.disk path = some node := by
  cases step
  cases event with
  | add env archive force =>
      obtain ⟨_, delivers, _⟩ := careful
      have other : path ∉ archive.pkg.files.map Prod.fst := by
        intro listed
        obtain ⟨file, member, rfl⟩ := List.mem_map.mp listed
        exact unlisted (delivers.listed file member)
      show (s.add rowIds env archive force).2.disk path = some node
      rcases @PkgSystem.add_disk rowIds s env archive force with
        ⟨same, _⟩ | ⟨_, _, changed, _⟩
      · rw [same, there]
      · rw [changed]
        exact installFiles_kept delivers spares rfl other isFile there
  | delete env locked flags id =>
      show (s.delete env locked flags id).disk path = some node
      unfold PkgSystem.delete
      split
      · exact there
      next p loaded =>
        rw [inv.consistent.now careful.1] at loaded
        have other : path ∉ p.files.map Prod.fst := fun listed =>
          unlisted (inv.owned path ⟨id, p, loaded, listed⟩)
        have kept : (removeFiles env flags p s.disk).2 path = some node :=
          removeFiles_other spares rfl other isFile there
        split
        · exact there
        dsimp only
        split
        · exact kept
        · exact kept
  | reopen => exact there
  | change other _ => exact (Function.update_of_ne (Ne.symm spares) ..).trans there

end Invariant

def toolArchive : PkgArchive where
  pkg :=
    { row :=
        { origin := "misc/tool", name := "tool", version := "1", comment := some "a tool"
          desc := some "a tool", message := none, arch := some "freebsd:10:x86:64"
          maintainer := some "ports@FreeBSD.org", www := none, pkgPrefix := some "/usr/local"
          flatsize := 6, automatic := false, licenselogic := 1, mtree := none, digest := none }
      files := [("/usr/local/bin/tool", some "binary")]
      dirs := [("/usr/local/etc/tool", true)] }
  entries := [⟨"/usr/local/etc/tool", .directory⟩, ⟨"/usr/local/bin/tool", .regular "binary"⟩]

def plainRemoval : UpgradeEnv where
  cksum
    | .regular content => some content
    | .symlink target => some target
    | _ => none
  permits _ := true
  rmdirs _ _ := true
  runScript _ disk := (.ok, disk)
  handleRc := false
  stopRc disk := disk
  prepare _ _ := none

def plainInstall : InstallEnv where
  extractMtree disk := (.ok, disk)
  preInstall disk := disk
  postInstall disk := disk
  startRc disk := disk
  extract :=
    { extracts := fun _ => true, torn := fun _ => none
      parents := fun _ => ["/usr/local", "/usr/local/bin"]
      suffixed := fun _ => "/usr/local/bin/tool.abcdefghijkl", confExtracts := fun _ => true
      confNode := fun _ => none, renames := fun _ => true, unlinks := fun _ => true }
  removal := plainRemoval

def toolEvents : List SystemEvent :=
  [.add plainInstall toolArchive false, .reopen, .delete plainRemoval false 0 1,
    .add plainInstall toolArchive false]

theorem toolArchive_delivers :
    toolArchive.Delivers plainRemoval.cksum (· = "/usr/local/bin/tool") where
  listed file member := by
    rw [List.mem_singleton.mp member]
  delivered file member := by
    rw [List.mem_singleton.mp member]
    exact ⟨_, List.mem_cons_of_mem _ (List.mem_singleton_self _), rfl, by decide, by decide⟩
  within := by decide
  distinct := by decide

theorem plainInstall_careful :
    plainInstall.Careful (· = "/usr/local/bin/tool") toolArchive where
  mtree _ _ _ := rfl
  preInstall _ _ _ := rfl
  postInstall _ _ _ := rfl
  startRc _ _ _ := rfl
  unmanaged _ :=
    show ¬"/usr/local/bin/tool.abcdefghijkl" = "/usr/local/bin/tool" by decide
  fresh _ :=
    show ∀ entry ∈ toolArchive.entries, "/usr/local/bin/tool.abcdefghijkl" ≠ entry.path by decide
  strict := Or.inr rfl

theorem plainRemoval_careful : CarefulRemoval (· = "/usr/local/bin/tool") plainRemoval where
  stopRc _ _ _ := rfl
  scripts _ _ _ _ := rfl
  succeeds _ := rfl

example :
    (PkgSystem.add RowIds.max plainInstall toolArchive false ⟨newDatabase, fun _ => none⟩).1 =
      .ok := by decide +kernel

end Pkgng
