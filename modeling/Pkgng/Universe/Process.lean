import Pkgng.Universe.Items

/-!
# Populating the universe

`pkg_jobs_universe_process_item` adds a package and then, depending on the job
type, what its dependencies, reverse dependencies, conflicts and required
libraries lead to.  The loops take the recursive call as a parameter;
`pkgJobsUniverseProcessItem` ties the knot with a bound on the depth of the
recursion, and all functions return `none` where the bound is reached.
-/

set_option autoImplicit false

namespace Pkgng

open Lib

/-- What the functions below read besides the universe: the job's type and
flags, and the answers of the databases.  A query answers with its rows in
order. -/
structure Env where
  type : JobsType := .install
  forceMissing : Bool := false
  recursive : Bool := false
  /-- `pkgdb_query (uid, MATCH_EXACT)`. -/
  query : Uid → List Pkg
  /-- `pkgdb_repo_query (uid, MATCH_EXACT)`. -/
  repoQuery : Uid → List Pkg
  /-- `pkgdb_repo_shlib_provide`, which may return null. -/
  shlibProvide : String → Option (List Pkg)
  /-- `pkg_version_cmp`. -/
  versionCmp : String → String → Int
  /-- `pkg_checksum_calculate`. -/
  checksum : Pkg → Option Digest

namespace JobsUniverse

def emitError (u : JobsUniverse) (message : String) : JobsUniverse :=
  { u with errors := u.errors ++ [message] }

def modifyPkg (u : JobsUniverse) (item : Addr) (f : Pkg → Pkg) : JobsUniverse :=
  { u with pkgs := u.pkgs.modify item f }

/-- `pkgdb_it_next` filling a package that items of the universe already own. -/
def refill (u : JobsUniverse) (owners : List Addr) (row : Pkg) : JobsUniverse :=
  { owners.foldl (fun u owner => u.modifyPkg owner fun _ => row) u with
    refilled := u.refilled ++ owners }

/-- The provider `pr->un`, recorded in the list that the entry at `prhead`
heads, or in a new entry. -/
def recordProvide (u : JobsUniverse) (shlib : String) (prhead : Option Nat) (un : Option Addr) :
    Option Nat × JobsUniverse :=
  match prhead with
  | none =>
      (some u.provides.length, { u with provides := HashTable.add shlib [un] u.provides })
  | some entry =>
      (some entry, { u with provides := u.provides.modify entry fun e => (e.1, e.2 ++ [un]) })

end JobsUniverse

section Queries

variable (env : Env) (u : JobsUniverse) (uid : Uid)

def pkgJobsUniverseGetLocal : Option Pkg :=
  match u.find uid with
  | some unit => if (u.pkg unit).isInstalled then some (u.pkg unit) else (env.query uid).head?
  | none => (env.query uid).head?

/-- The row that `pkg_jobs_universe_get_remote` selects: the first one, until a
later one upgrades it. -/
def selectRemote (versionCmp : String → String → Int) : List Pkg → Option Pkg :=
  List.foldl (fun selected pkg =>
    match selected with
    | none => some pkg
    | some best => if pkgVersionUpgrades versionCmp pkg best then some pkg else some best) none

def pkgJobsUniverseGetRemote : Option Pkg :=
  match u.find uid with
  | some unit =>
      if !(u.pkg unit).isInstalled then some (u.pkg unit)
      else selectRemote env.versionCmp (env.repoQuery uid)
  | none => selectRemote env.versionCmp (env.repoQuery uid)

end Queries

/-- The `DEPS_FLAG` bits that some caller sets. -/
structure DepsFlags where
  reverse : Bool := false
  mirror : Bool := false
  forceLocal : Bool := false
  forceMissing : Bool := false

/-- A call of `pkg_jobs_universe_process_item`: the return code, what `*result`
is set to, and the universe. -/
abbrev ProcessItem := JobsUniverse → Pkg → Option (Epkg × Option Addr × JobsUniverse)

section Loops

variable (env : Env) (self : ProcessItem)

/-- The remote candidate for a dependency; one that is no upgrade is dropped. -/
def remoteCandidate (u : JobsUniverse) (flags : DepsFlags) (uid : Uid) (npkg : Option Pkg) :
    Option Pkg :=
  if flags.forceLocal then none
  else
    (pkgJobsUniverseGetRemote env u uid).filter fun rpkg =>
      pkgJobsNeedUpgrade env.versionCmp rpkg npkg

/-- `pkg_jobs_universe_process_deps` from a point of its loop on.  The request
that `DEPS_FLAG_MIRROR` asks for needs a `unit`, which is null on that path, so
it is never made. -/
def processDeps (flags : DepsFlags) (pkg : Pkg) :
    List Dep → JobsUniverse → Option (Epkg × JobsUniverse)
  | [], u => some (.ok, u)
  | d :: rest, u =>
      match u.find d.uid with
      | some _ => processDeps flags pkg rest u
      | none =>
          let npkg := if flags.mirror then none else pkgJobsUniverseGetLocal env u d.uid
          match npkg, remoteCandidate env u flags d.uid npkg with
          | none, none =>
              let u := u.emitError (pkg.name ++ " has a missing dependency: " ++ d.name)
              if flags.forceMissing then processDeps flags pkg rest u else some (.fatal, u)
          | none, some rpkg => do
              let (_, _, u) ← self u rpkg
              processDeps flags pkg rest u
          | some npkg, rpkg => do
              let (rc, _, u) ← self u npkg
              match rpkg with
              | some rpkg =>
                  if rc ≠ .ok then processDeps flags pkg rest u
                  else do
                    let (_, _, u) ← self u { rpkg with automatic := npkg.automatic }
                    processDeps flags pkg rest u
              | none => processDeps flags pkg rest u

def pkgJobsUniverseProcessDeps (flags : DepsFlags) (pkg : Pkg) (u : JobsUniverse) :
    Option (Epkg × JobsUniverse) :=
  processDeps env self flags pkg (if flags.reverse then pkg.rdeps else pkg.deps) u

/-- `pkg_jobs_universe_process_conflicts` from a point of its loop on. -/
def processConflicts (pkg : Pkg) : List Conflict → JobsUniverse → Option (Epkg × JobsUniverse)
  | [], u => some (.ok, u)
  | c :: rest, u =>
      match u.find c.uniqueid with
      | some _ => processConflicts pkg rest u
      | none =>
          if pkg.isInstalled then
            match pkgJobsUniverseGetRemote env u c.uniqueid with
            | none => processConflicts pkg rest u
            | some npkg => do
                let (_, _, u) ← self u npkg
                processConflicts pkg rest u
          else
            match pkgJobsUniverseGetLocal env u c.uniqueid with
            | none => processConflicts pkg rest u
            | some npkg => do
                let (rc, _, u) ← self u npkg
                if rc ≠ .ok ∨ c.type = .remoteLocal then processConflicts pkg rest u
                else
                  match pkgJobsUniverseGetRemote env u c.uniqueid with
                  | none => processConflicts pkg rest u
                  | some npkg => do
                      let (_, _, u) ← self u npkg
                      processConflicts pkg rest u

def pkgJobsUniverseProcessConflicts (pkg : Pkg) (u : JobsUniverse) :
    Option (Epkg × JobsUniverse) :=
  processConflicts env self pkg pkg.conflicts u

/-- A call on the row under the cursor: the code, `*result`, the items that own
the row afterwards, and the universe. -/
def processRow (u : JobsUniverse) (row : Pkg) (owners : List Addr) :
    Option (Epkg × Option Addr × List Addr × JobsUniverse) := do
  let (rc, unit, u') ← self u row
  let owners := if u.pkgs.length < u'.pkgs.length then owners ++ [u.pkgs.length] else owners
  pure (rc, unit, owners, u')

/-- The step of the row loop that ends in `if (unit == NULL)`: the item under
which a provider has not been found yet, from the digests seen. -/
def processUnseen (u : JobsUniverse) (pkg row : Pkg) (owners : List Addr) :
    Option (Epkg × Option Addr × List Addr × JobsUniverse) :=
  -- A row without a digest is looked up under the digest of `pkg`.
  match row.digest.or (env.checksum pkg) with
  | none => some (.fatal, none, owners, u)
  | some digest =>
      match HashTable.find digest u.seen with
      | some un => some (.ok, some un, owners, u)
      | none => do
          let (_, unit, _, u) ← processRow self u row owners
          pure (.ok, unit, [], u)

/-- What one row of `pkgdb_repo_shlib_provide` leads to.  The code is `again`
for `continue`, `fatal` for a return and `ok` when the provider is recorded; the
items are those that `rpkg` still points into. -/
def processProvider (u : JobsUniverse) (pkg row : Pkg) (owners : List Addr) :
    Option (Epkg × Option Addr × List Addr × JobsUniverse) :=
  match u.find row.uid with
  | some unit =>
      if pkgJobsNeedUpgrade env.versionCmp row (some (u.pkg unit)) then do
        let (rc, unit, owners, u) ← processRow self u row owners
        if rc ≠ .ok then pure (.again, unit, owners, u) else pure (.ok, unit, [], u)
      else some (.ok, some unit, owners, u)
  | none =>
      match pkgJobsUniverseGetLocal env u row.uid with
      | none => processUnseen env self u pkg row owners
      | some npkg => do
          let (rc, unit, u) ← self u npkg
          if rc ≠ .ok then pure (.fatal, unit, owners, u)
          else if pkgJobsNeedUpgrade env.versionCmp row (some npkg) then do
            -- Here the source leaves `rpkg` pointing at the package it gave away.
            let (rc, unit, owners, u) ← processRow self u row owners
            if rc ≠ .ok then pure (.again, unit, owners, u) else pure (.ok, unit, owners, u)
          else pure (.ok, unit, owners, u)

/-- The loop over the rows that provide a library. -/
def processProviders (pkg : Pkg) (shlib : String) :
    List Pkg → List Addr → Option Nat → JobsUniverse → Option (Epkg × JobsUniverse)
  | [], _, _, u => some (.ok, u)
  | row :: rest, owners, prhead, u => do
      let (rc, unit, owners, u) ← processProvider env self (u.refill owners row) pkg row owners
      match rc with
      | .ok =>
          let (prhead, u) := u.recordProvide shlib prhead unit
          processProviders pkg shlib rest owners prhead u
      | .again => processProviders pkg shlib rest owners prhead u
      | rc => pure (rc, u)

/-- `pkg_jobs_universe_process_shlibs` from a point of its loop on. -/
def processShlibs (pkg : Pkg) : List String → JobsUniverse → Option (Epkg × JobsUniverse)
  | [], u => some (.ok, u)
  | shlib :: rest, u =>
      match HashTable.find shlib u.provides, env.shlibProvide shlib with
      | some _, _ => processShlibs pkg rest u
      | none, none => processShlibs pkg rest u
      | none, some rows => do
          let (rc, u) ← processProviders env self pkg shlib rows [] none u
          if rc ≠ .ok then pure (rc, u) else processShlibs pkg rest u

def pkgJobsUniverseProcessShlibs (pkg : Pkg) (u : JobsUniverse) : Option (Epkg × JobsUniverse) :=
  processShlibs env self pkg pkg.shlibsRequired u

/-- The cases `PKG_JOBS_INSTALL` and `PKG_JOBS_UPGRADE`. -/
def processWanted (flags : DepsFlags) (pkg : Pkg) (u : JobsUniverse) :
    Option (Epkg × JobsUniverse) := do
  let (rc, u) ← pkgJobsUniverseProcessDeps env self flags pkg u
  if rc ≠ .ok then pure (rc, u)
  else do
    let (rc, u) ← pkgJobsUniverseProcessDeps env self { flags with reverse := true } pkg u
    if rc ≠ .ok then pure (rc, u)
    else do
      let (rc, u) ← pkgJobsUniverseProcessConflicts env self pkg u
      if rc ≠ .ok then pure (rc, u)
      else if !pkg.isInstalled then pkgJobsUniverseProcessShlibs env self pkg u
      else pure (rc, u)

/-- The `switch` of `pkg_jobs_universe_process_item`, once the package is added. -/
def processAdded (pkg : Pkg) (u : JobsUniverse) : Option (Epkg × JobsUniverse) :=
  let flags : DepsFlags := { forceMissing := env.forceMissing }
  match env.type with
  | .fetch =>
      if env.recursive then
        pkgJobsUniverseProcessDeps env self { flags with mirror := true } pkg u
      else some (.ok, u)
  | .install => processWanted env self flags pkg u
  | .upgrade => processWanted env self flags pkg u
  | .autoremove => some (.ok, u)
  | .deinstall =>
      if env.recursive then
        pkgJobsUniverseProcessDeps env self { flags with reverse := true, forceLocal := true } pkg u
      else some (.ok, u)

end Loops

def pkgJobsUniverseProcessItem (env : Env) : Nat → ProcessItem
  | 0, _, _ => none
  | fuel + 1, u, pkg =>
      match pkgJobsUniverseAddPkg env.checksum u pkg false with
      | (.finished, unit, u) => some (.ok, unit, u)
      | (.ok, unit, u) => do
          let (rc, u) ← processAdded env (pkgJobsUniverseProcessItem env fuel) pkg u
          pure (rc, unit, u)
      | (rc, unit, u) => some (rc, unit, u)

end Pkgng
