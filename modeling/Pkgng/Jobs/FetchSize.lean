import Pkgng.Jobs.Basic
import Mathlib.Algebra.Ring.Int.Defs

/-!
# Which packages are fetched

`pkg_jobs_fetch` adds up, over all jobs, by how much the recorded sizes exceed those of the
cached files, and does not fetch anything if the sum is zero.
-/

set_option autoImplicit false

namespace Pkgng

/-- A value stored in an `int64_t`. -/
def toInt64 (n : Int) : Int := Int.bmod n 18446744073709551616

/-- What is read of the package of a job's first item. -/
structure FetchPkg where
  type : PkgType
  pkgsize : Int
  repopath : String
  /-- `pkg_repo_cached_name`. -/
  cachedName : String
deriving DecidableEq, Repr

structure FetchJob where
  type : SolvedType
  pkg : FetchPkg
deriving DecidableEq, Repr

/-- The flags of the jobs, and what the system answers. -/
structure FetchEnv where
  mirror : Bool
  dryRun : Bool
  destdir : Option String
  /-- `PKG_CACHEDIR`. -/
  cachedirConf : String
  /-- `stat`: the size of the file, if there is one. -/
  stat : String → Option Nat
  /-- `f_bsize * f_bavail` for the directory; none where it can neither be read nor made. -/
  available : String → Option Int
  /-- `pkg_repo_mirror_package` or `pkg_repo_fetch_package`. -/
  fetch : FetchPkg → Epkg

namespace FetchEnv

variable (env : FetchEnv)

def cachedir : String :=
  if env.mirror then env.destdir.getD env.cachedirConf else env.cachedirConf

/-- The file that is looked at, in a buffer of `MAXPATHLEN`. -/
def cachedPath (p : FetchPkg) : String :=
  if env.mirror then
    String.ofList ((env.cachedir ++ "/" ++ p.repopath).toList.take (maxPathLen - 1))
  else p.cachedName

/-- By how much the recorded size exceeds that of the cached file. -/
def missing (p : FetchPkg) : Int :=
  match env.stat (env.cachedPath p) with
  | none => p.pkgsize
  | some size => p.pkgsize - size

end FetchEnv

/-- The packages that the loops visit. -/
def fetchedPkgs (jobs : List FetchJob) : List FetchPkg :=
  (jobs.filter fun ps =>
    ps.type ≠ .delete && ps.type ≠ .upgradeRemove && ps.pkg.type = .remote).map FetchJob.pkg

/-- The first loop. -/
def dlsize (env : FetchEnv) (jobs : List FetchJob) : Int :=
  (fetchedPkgs jobs).foldl (fun dlsize p => toInt64 (dlsize + toInt64 (env.missing p))) 0

/-- The second loop: the code, and the packages whose fetch was called for. -/
def fetchLoop (env : FetchEnv) : List FetchPkg → Epkg × List FetchPkg
  | [] => (.ok, [])
  | p :: rest =>
      if env.fetch p ≠ .ok then (.fatal, [p])
      else
        let (code, called) := fetchLoop env rest
        (code, p :: called)

def pkgJobsFetch (env : FetchEnv) (jobs : List FetchJob) : Epkg × List FetchPkg :=
  if dlsize env jobs = 0 then (.ok, [])
  else
    match env.available env.cachedir with
    | none => (.fatal, [])
    | some available =>
        if available < dlsize env jobs then (.fatal, [])
        else if env.dryRun then (.ok, [])
        else fetchLoop env (fetchedPkgs jobs)

/-- On success every remote package was fetched or is in the cache with its size. -/
def FetchesMissing (env : FetchEnv) (jobs : List FetchJob) : Prop :=
  (pkgJobsFetch env jobs).1 = .ok → ∀ p ∈ fetchedPkgs jobs, p ∉ (pkgJobsFetch env jobs).2 →
    ∃ size : Nat, env.stat (env.cachedPath p) = some size ∧ (size : Int) = p.pkgsize

theorem toInt64_add (a b : Int) : toInt64 (toInt64 a + toInt64 b) = toInt64 (a + b) := by
  rw [toInt64, toInt64, toInt64, Int.bmod_add_bmod, Int.add_bmod_bmod]
  rfl

theorem foldl_toInt64 {α : Type} (f : α → Int) (list : List α) (start : Int) :
    list.foldl (fun sum x => toInt64 (sum + toInt64 (f x))) (toInt64 start) =
      toInt64 (start + (list.map f).sum) := by
  induction list generalizing start with
  | nil => rw [List.foldl_nil, List.map_nil, List.sum_nil, Int.add_zero]
  | cons x rest ih =>
      rw [List.foldl_cons, toInt64_add, ih, List.map_cons, List.sum_cons, Int.add_assoc]

/-- The sum is that of all differences, up to what an `int64_t` holds. -/
theorem dlsize_eq_zero_iff (env : FetchEnv) (jobs : List FetchJob) :
    dlsize env jobs = 0 ↔
      (18446744073709551616 : Int) ∣ ((fetchedPkgs jobs).map env.missing).sum := by
  have folded := foldl_toInt64 env.missing (fetchedPkgs jobs) 0
  rw [show toInt64 0 = 0 from rfl, Int.zero_add] at folded
  rw [dlsize, folded, toInt64]
  exact Int.dvd_iff_bmod_eq_zero.symm

theorem fetchLoop_ok {env : FetchEnv} {pkgs : List FetchPkg} (ok : (fetchLoop env pkgs).1 = .ok) :
    (fetchLoop env pkgs).2 = pkgs := by
  induction pkgs with
  | nil => rfl
  | cons p rest ih =>
      rw [fetchLoop] at ok ⊢
      split at ok
      · cases ok
      · next fetched =>
          rw [if_neg fetched]
          dsimp only at ok ⊢
          rw [ih ok]

/-- Outside of a dry run the jobs fetch what is missing exactly if the differences do not add up
to zero, unless each of them is zero with its file there. -/
theorem fetchesMissing_iff {env : FetchEnv} (wet : env.dryRun = false) (jobs : List FetchJob) :
    FetchesMissing env jobs ↔
      ((18446744073709551616 : Int) ∣ ((fetchedPkgs jobs).map env.missing).sum →
        ∀ p ∈ fetchedPkgs jobs,
          ∃ size : Nat, env.stat (env.cachedPath p) = some size ∧ (size : Int) = p.pkgsize) := by
  rw [← dlsize_eq_zero_iff]
  constructor
  · intro fetches zero p member
    have skipped : pkgJobsFetch env jobs = (.ok, []) := if_pos zero
    rw [FetchesMissing, skipped] at fetches
    exact fetches rfl p member List.not_mem_nil
  · intro cached ok p member notCalled
    by_cases zero : dlsize env jobs = 0
    · exact cached zero p member
    · -- Here every package is fetched, or the code is an error.
      rw [pkgJobsFetch, if_neg zero] at ok notCalled
      cases room : env.available env.cachedir with
      | none =>
          rw [room] at ok
          cases ok
      | some available =>
          rw [room] at ok notCalled
          dsimp only at ok notCalled
          split at ok
          · cases ok
          · next enough =>
              rw [if_neg enough, wet, if_neg Bool.false_ne_true] at notCalled
              rw [wet, if_neg Bool.false_ne_true] at ok
              rw [fetchLoop_ok ok] at notCalled
              exact absurd member notCalled

/-- A cache under `/c` in which the given files are, with room enough. -/
def cacheWith (stat : String → Option Nat) : FetchEnv where
  mirror := false
  dryRun := false
  destdir := none
  cachedirConf := "/c"
  stat := stat
  available _ := some 1000000
  fetch _ := .ok

def installJob (pkgsize : Int) (cachedName : String) : FetchJob :=
  ⟨.install, ⟨.remote, pkgsize, "All/p.txz", cachedName⟩⟩

/-- A truncated file is fetched again. -/
theorem truncatedFile_fetchesMissing :
    FetchesMissing (cacheWith fun _ => some 60) [installJob 100 "/c/a-1.txz"] := by
  refine (fetchesMissing_iff rfl _).mpr fun zero => absurd zero ?_
  decide

/-- A file that is too long by as much as another one lacks hides that one. -/
theorem longFile_not_fetchesMissing :
    ¬∀ env jobs, env.dryRun = false → FetchesMissing env jobs := by
  intro all
  have cached := (fetchesMissing_iff rfl _).mp
    (all (cacheWith fun path => if path = "/c/b-1.txz" then some 150 else none)
      [installJob 100 "/c/a-1.txz", installJob 50 "/c/b-1.txz"] rfl)
    (by decide) _ List.mem_cons_self
  obtain ⟨size, isThere, _⟩ := cached
  simp [cacheWith, FetchEnv.cachedPath, installJob] at isThere

end Pkgng
