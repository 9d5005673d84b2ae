import Mathlib.Data.List.Basic

/-!
# Packages

The part of `struct pkg` that the job solver reads.  The hash tables of a
package (dependencies, conflicts, shared libraries and so on) are lists in
insertion order, the order in which `HASH_ITER` and the `pkg_deps` family of
iterators visit them.
-/

set_option autoImplicit false

namespace Pkgng

def maxPathLen : Nat := 1024

/-- `name~origin`, the key that identifies a package across versions. -/
abbrev Uid := String

abbrev Digest := String

/-- `pkg_t`. -/
inductive PkgType
  | none
  | file
  | stream
  | remote
  | installed
  | oldFile
deriving DecidableEq, Repr

inductive ConflictType
  | all
  | remoteLocal
  | remoteRemote
  | localLocal
deriving DecidableEq, Repr

/-- `struct pkg_conflict`.  A conflict created from a manifest has the type
zero of `calloc`, which is `all`. -/
structure Conflict where
  uniqueid : Uid
  type : ConflictType := .all
deriving DecidableEq, Repr

/-- `struct pkg_dep`, used for dependencies and for reverse dependencies. -/
structure Dep where
  name : String
  uid : Uid
  origin : String := ""
deriving DecidableEq, Repr

structure Pkg where
  type : PkgType
  uid : Uid
  name : String := ""
  origin : String := ""
  version : String := ""
  arch : String := ""
  digest : Option Digest := none
  reponame : String := ""
  /-- The `repository` annotation of an installed package. -/
  repository : Option String := none
  automatic : Bool := false
  locked : Bool := false
  options : List (String × String) := []
  deps : List Dep := []
  rdeps : List Dep := []
  conflicts : List Conflict := []
  provides : List String := []
  shlibsRequired : List String := []
  shlibsProvided : List String := []
deriving DecidableEq, Repr

/-- The return codes the solver distinguishes. -/
inductive Epkg
  | ok
  | finished
  | fatal
  | installed
  | conflict
  | again
deriving DecidableEq, Repr

/-- `pkg_jobs_t`. -/
inductive JobsType
  | install
  | deinstall
  | fetch
  | autoremove
  | upgrade
deriving DecidableEq, Repr

namespace Pkg

def isInstalled (pkg : Pkg) : Bool := decide (pkg.type = .installed)

def depUids (pkg : Pkg) : List Uid := pkg.deps.map Dep.uid

def rdepUids (pkg : Pkg) : List Uid := pkg.rdeps.map Dep.uid

@[simp] theorem isInstalled_eq_true {pkg : Pkg} :
    pkg.isInstalled = true ↔ pkg.type = .installed := by
  simp [isInstalled]

@[simp] theorem isInstalled_eq_false {pkg : Pkg} :
    pkg.isInstalled = false ↔ pkg.type ≠ .installed := by
  simp [isInstalled]

end Pkg

section Upgrade

-- `pkg_version_cmp` is a parameter: nothing below depends on the order it puts
-- on version strings.
variable (versionCmp : String → String → Int)

/-- `pkg_jobs_need_upgrade`.  Each of the closing loops of the source walks two
tables in step and reports a change at the first difference, in length or in an
entry, so together they compare the two sequences of entries. -/
def pkgJobsNeedUpgrade (rp : Pkg) : Option Pkg → Bool
  | none => true
  | some lp =>
      if lp.locked then false
      else if lp.digest.isSome && rp.digest.isSome && decide (lp.digest = rp.digest) then false
      else if 0 < versionCmp lp.version rp.version then false
      else if versionCmp lp.version rp.version < 0 then true
      else if lp.repository.isSome && decide (lp.repository ≠ some rp.reponame) then false
      else if lp.arch ≠ rp.arch then true
      else if rp.options ≠ lp.options then true
      else if rp.deps.map Dep.name ≠ lp.deps.map Dep.name then true
      else if rp.conflicts.map Conflict.uniqueid ≠ lp.conflicts.map Conflict.uniqueid then true
      else if rp.provides ≠ lp.provides then true
      else decide (rp.shlibsRequired ≠ lp.shlibsRequired)

/-- `pkg_version_change_between`, as far as its one caller here asks. -/
def pkgVersionUpgrades (pkg1 pkg2 : Pkg) : Bool :=
  decide (versionCmp pkg2.version pkg1.version = -1)

@[simp] theorem pkgJobsNeedUpgrade_none (rp : Pkg) :
    pkgJobsNeedUpgrade versionCmp rp none = true := rfl

end Upgrade

end Pkgng
