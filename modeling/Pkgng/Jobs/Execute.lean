import Pkgng.Db.PackageTable
import Pkgng.Jobs.Basic

/-!
# Executing the jobs

`pkg_jobs_execute` runs all jobs inside one savepoint.  What a job does to the disk
is only how far it gets; followed here is the table of the registered packages.
-/

set_option autoImplicit false

namespace Pkgng

/-- A return code other than `EPKG_OK`. -/
structure FailCode where
  code : Int
  failed : code ≠ 0

/-- How far `pkg_delete` gets: it fails before the deletion of the row takes effect
(the package is locked, a script fails, the statement fails), or in one of the
statements after it. -/
inductive DeleteOutcome
  | done
  | failedBefore (ret : FailCode)
  | failedAfter (ret : FailCode)

/-- How far `pkg_add_common` gets: it fails before the row is inserted, after it
(in `pkgdb_register_pkg`, the mtree, the scripts or the extraction), or in an
`INSERT OR ROLLBACK`. -/
inductive AddOutcome
  | done
  | failedBefore (ret : FailCode)
  | failedAfter (ret : FailCode)
  | aborted (ret : FailCode)

/-- A job with the package of `items[0]`, and what comes of executing it. -/
structure ExecJob where
  type : SolvedType
  name : String
  uid : Uid
  version : String
  rowid : Nat := 0
  onDelete : DeleteOutcome := .done
  onAdd : AddOutcome := .done

structure ExecFlags where
  force : Bool := false
  skipInstall : Bool := false

def pkgDelete (db : PkgDb) (job : ExecJob) : PkgDb × Int :=
  match job.onDelete with
  | .done => (db.write (db.table.unregister job.rowid), 0)
  | .failedBefore ret => (db, ret.code)
  | .failedAfter ret => (db.write (db.table.unregister job.rowid), ret.code)

/-- `pkg_add_upgrade` and `pkg_add_from_remote`. -/
def pkgAddCommon (db : PkgDb) (job : ExecJob) : PkgDb × Int :=
  match job.onAdd with
  | .done => (db.write (db.table.register job.uid job.version), 0)
  | .failedBefore ret => (db, ret.code)
  | .failedAfter ret => (db.write (db.table.register job.uid job.version), ret.code)
  | .aborted ret => ((db.write (db.table.register job.uid job.version)).abort, ret.code)

def pkgJobsHandleInstall (db : PkgDb) (job : ExecJob) : PkgDb × Int :=
  let (db, retcode) := pkgAddCommon db job
  if retcode ≠ 0 then (db.transactionRollback, retcode) else (db, retcode)

/-- The job deletes pkg itself without the force flag. -/
def ExecJob.refused (flags : ExecFlags) (job : ExecJob) : Bool :=
  decide (job.type = .delete) && (decide (job.name = "pkg") || decide (job.name = "pkg-devel")) &&
    !flags.force

def epkgFatal : Int := 3

/-- The loop of `pkg_jobs_execute`. -/
def executeJobs (flags : ExecFlags) : List ExecJob → PkgDb → Int → PkgDb × Int
  | [], db, retcode => (db, retcode)
  | job :: rest, db, retcode =>
      match job.type with
      | .delete | .upgradeRemove =>
          if job.refused flags then executeJobs flags rest db retcode
          else
            let (db, retcode) := pkgDelete db job
            if retcode ≠ 0 then (db, retcode) else executeJobs flags rest db retcode
      | .install | .upgrade =>
          let (db, retcode) := pkgJobsHandleInstall db job
          if retcode ≠ 0 then (db, retcode) else executeJobs flags rest db retcode
      | .fetch => (db, epkgFatal)

/-- `pkg_jobs_execute` on the list that `pkg_jobs_set_priorities` leaves;
`upgradeLock` is what `pkgdb_upgrade_lock` returned. -/
def pkgJobsExecute (flags : ExecFlags) (upgradeLock : Int) (jobs : List ExecJob) (db : PkgDb) :
    PkgDb × Int :=
  if flags.skipInstall then (db, 0)
  else if upgradeLock ≠ 0 then (db, upgradeLock)
  else
    let (db, retcode) := executeJobs flags jobs db.transactionBegin upgradeLock
    (db.transactionCommit, retcode)

/-! ## What was done to the disk -/

def ExecJob.isRemoval (job : ExecJob) : Bool :=
  decide (job.type = .delete) || decide (job.type = .upgradeRemove)

def ExecJob.isInstall (job : ExecJob) : Bool :=
  decide (job.type = .install) || decide (job.type = .upgrade)

/-- What a completed job does to the registered packages. -/
def ExecJob.apply (table : PackageTable) (job : ExecJob) : PackageTable :=
  if job.isRemoval then table.unregister job.rowid
  else if job.isInstall then table.register job.uid job.version
  else table

/-- The completed jobs applied to the table. -/
def appliedJobs (table : PackageTable) (completed : List ExecJob) : PackageTable :=
  completed.foldl ExecJob.apply table

/-- `pkg_delete` or `pkg_jobs_handle_install` fails at a job of the list after the
completed ones. -/
inductive FailsAfter (flags : ExecFlags) : List ExecJob → List ExecJob → ExecJob → Prop
  | removal {job : ExecJob} {rest : List ExecJob} (type : job.isRemoval = true)
      (accepted : job.refused flags = false) (fails : job.onDelete ≠ .done) :
      FailsAfter flags (job :: rest) [] job
  | install {job : ExecJob} {rest : List ExecJob} (type : job.isInstall = true)
      (fails : job.onAdd ≠ .done) : FailsAfter flags (job :: rest) [] job
  | refused {job failing : ExecJob} {rest completed : List ExecJob}
      (refused : job.refused flags = true) (later : FailsAfter flags rest completed failing) :
      FailsAfter flags (job :: rest) completed failing
  | removed {job failing : ExecJob} {rest completed : List ExecJob}
      (type : job.isRemoval = true) (accepted : job.refused flags = false)
      (done : job.onDelete = .done) (later : FailsAfter flags rest completed failing) :
      FailsAfter flags (job :: rest) (job :: completed) failing
  | installed {job failing : ExecJob} {rest completed : List ExecJob}
      (type : job.isInstall = true) (done : job.onAdd = .done)
      (later : FailsAfter flags rest completed failing) :
      FailsAfter flags (job :: rest) (job :: completed) failing

/-- The packages registered after a run are the initial ones with the completed jobs
applied. -/
def FollowsDisk (flags : ExecFlags) (jobs : List ExecJob) (table : PackageTable)
    (completed : List ExecJob) : Prop :=
  (pkgJobsExecute flags 0 jobs (PkgDb.connect table)).1.committed.SamePackages
    (appliedJobs table completed)

/-- The failing job leaves its row alone, if it is a removal, or the jobs before it
leave the registered packages as they were, if it is an install. -/
def HarmlessFailure (table : PackageTable) (completed : List ExecJob) (failing : ExecJob) :
    Prop :=
  if failing.isRemoval then
    (∃ ret, failing.onDelete = .failedBefore ret) ∨
      ∀ row ∈ (appliedJobs table completed).rows, row.id ≠ failing.rowid
  else (appliedJobs table completed).SamePackages table

/-! ## The run -/

/-- The table that a run with the failing job leaves, from the table at the savepoint
and the one before that job. -/
def tableAfterFailure (initial before : PackageTable) (failing : ExecJob) : PackageTable :=
  if failing.isRemoval then
    match failing.onDelete with
    | .failedAfter _ => before.unregister failing.rowid
    | _ => before
  else initial

/-- Inside the savepoint that was set on the initial table. -/
structure InSavepoint (initial : PackageTable) (db : PkgDb) : Prop where
  savepoint : db.savepoint = some initial
  committed : db.committed = initial

section Run

variable {initial table : PackageTable} {db : PkgDb} {flags : ExecFlags}
  {jobs completed : List ExecJob} {job failing : ExecJob}

theorem InSavepoint.write_eq (inside : InSavepoint initial db) (table : PackageTable) :
    db.write table = { db with table := table } := by
  simp [PkgDb.write, inside.savepoint]

theorem InSavepoint.write (inside : InSavepoint initial db) (table : PackageTable) :
    InSavepoint initial (db.write table) := by
  rw [inside.write_eq]
  exact ⟨inside.savepoint, inside.committed⟩

theorem InSavepoint.commit (inside : InSavepoint initial db) :
    db.transactionCommit.committed = db.table := by
  simp [PkgDb.transactionCommit, inside.savepoint]

theorem InSavepoint.rollback (inside : InSavepoint initial db) :
    db.transactionRollback.transactionCommit.committed = initial := by
  simp [PkgDb.transactionRollback, PkgDb.transactionCommit, inside.savepoint]

/-- A failing install ends at the savepoint, also when the transaction is gone. -/
theorem InSavepoint.handleInstall_fails (inside : InSavepoint initial db)
    (fails : job.onAdd ≠ .done) :
    (pkgJobsHandleInstall db job).2 ≠ 0 ∧
      (pkgJobsHandleInstall db job).1.transactionCommit.committed = initial := by
  have written := inside.write (db.table.register job.uid job.version)
  unfold pkgJobsHandleInstall pkgAddCommon
  cases outcome : job.onAdd with
  | done => exact absurd outcome fails
  | failedBefore ret =>
      simp only [ne_eq, ret.failed, not_false_eq_true, if_true, true_and]
      exact inside.rollback
  | failedAfter ret =>
      simp only [ne_eq, ret.failed, not_false_eq_true, if_true, true_and]
      exact written.rollback
  | aborted ret =>
      simp only [ne_eq, ret.failed, not_false_eq_true, if_true, true_and]
      simp [PkgDb.abort, PkgDb.transactionRollback, PkgDb.transactionCommit, written.committed]

theorem handleInstall_done (done : job.onAdd = .done) :
    pkgJobsHandleInstall db job = (db.write (db.table.register job.uid job.version), 0) := by
  simp [pkgJobsHandleInstall, pkgAddCommon, done]

theorem executeJobs_removal (type : job.isRemoval = true) (rest : List ExecJob)
    (retcode : Int) :
    executeJobs flags (job :: rest) db retcode =
      if job.refused flags then executeJobs flags rest db retcode
      else if (pkgDelete db job).2 ≠ 0 then pkgDelete db job
      else executeJobs flags rest (pkgDelete db job).1 (pkgDelete db job).2 := by
  rw [executeJobs]
  simp only [ExecJob.isRemoval, Bool.or_eq_true, decide_eq_true_eq] at type
  rcases type with type | type <;> simp only [type]

theorem executeJobs_install (type : job.isInstall = true) (rest : List ExecJob)
    (retcode : Int) :
    executeJobs flags (job :: rest) db retcode =
      if (pkgJobsHandleInstall db job).2 ≠ 0 then pkgJobsHandleInstall db job
      else executeJobs flags rest (pkgJobsHandleInstall db job).1
        (pkgJobsHandleInstall db job).2 := by
  rw [executeJobs]
  simp only [ExecJob.isInstall, Bool.or_eq_true, decide_eq_true_eq] at type
  rcases type with type | type <;> simp only [type]

theorem ExecJob.isRemoval_of_refused (refused : job.refused flags = true) :
    job.isRemoval = true := by
  simp only [ExecJob.refused, Bool.and_eq_true, decide_eq_true_eq] at refused
  simp [ExecJob.isRemoval, refused.1.1]

theorem ExecJob.not_removal_of_install (type : job.isInstall = true) :
    job.isRemoval = false := by
  simp only [ExecJob.isInstall, Bool.or_eq_true, decide_eq_true_eq] at type
  rcases type with type | type <;> simp [ExecJob.isRemoval, type]

theorem executeJobs_fails (inside : InSavepoint initial db) (retcode : Int)
    (fails : FailsAfter flags jobs completed failing) :
    (executeJobs flags jobs db retcode).1.transactionCommit.committed =
      tableAfterFailure initial (appliedJobs db.table completed) failing := by
  induction fails generalizing db retcode with
  | @removal job rest type accepted fails =>
      rw [executeJobs_removal type, accepted, if_neg Bool.false_ne_true]
      unfold pkgDelete tableAfterFailure
      rw [if_pos type]
      cases outcome : job.onDelete with
      | done => exact absurd outcome fails
      | failedBefore ret =>
          simp only [ne_eq, ret.failed, not_false_eq_true, if_true]
          exact inside.commit
      | failedAfter ret =>
          simp only [ne_eq, ret.failed, not_false_eq_true, if_true]
          rw [(inside.write _).commit, inside.write_eq]
          rfl
  | @install job rest type fails =>
      obtain ⟨failed, rolledBack⟩ := inside.handleInstall_fails fails
      rw [executeJobs_install type, if_pos failed, rolledBack, tableAfterFailure,
        if_neg (by simp [ExecJob.not_removal_of_install type])]
  | @refused job failing rest completed refused later ih =>
      rw [executeJobs_removal (ExecJob.isRemoval_of_refused refused), if_pos refused]
      exact ih inside retcode
  | @removed job failing rest completed type accepted done later ih =>
      have deleted : pkgDelete db job = (db.write (db.table.unregister job.rowid), 0) := by
        simp [pkgDelete, done]
      have next := ih (inside.write (db.table.unregister job.rowid)) 0
      rw [executeJobs_removal type, accepted, if_neg Bool.false_ne_true, deleted,
        if_neg (by simp), next, inside.write_eq]
      simp [appliedJobs, ExecJob.apply, type]
  | @installed job failing rest completed type done later ih =>
      have next := ih (inside.write (db.table.register job.uid job.version)) 0
      rw [executeJobs_install type, handleInstall_done done, if_neg (by simp), next,
        inside.write_eq]
      simp [appliedJobs, ExecJob.apply, type, ExecJob.not_removal_of_install type]

end Run

theorem FailsAfter.delete_fails {flags : ExecFlags} {jobs completed : List ExecJob}
    {failing : ExecJob} (fails : FailsAfter flags jobs completed failing)
    (removal : failing.isRemoval = true) : failing.onDelete ≠ .done := by
  induction fails with
  | removal _ _ fails => exact fails
  | install type _ =>
      rw [ExecJob.not_removal_of_install type] at removal
      cases removal
  | refused _ _ ih => exact ih removal
  | removed _ _ _ _ ih => exact ih removal
  | installed _ _ _ ih => exact ih removal

/-- The registered packages follow the disk exactly when the failure is harmless. -/
theorem followsDisk_iff (flags : ExecFlags) (jobs : List ExecJob) (table : PackageTable)
    (completed : List ExecJob) (failing : ExecJob) (executed : flags.skipInstall = false)
    (fails : FailsAfter flags jobs completed failing) :
    FollowsDisk flags jobs table completed ↔ HarmlessFailure table completed failing := by
  have final : (pkgJobsExecute flags 0 jobs (PkgDb.connect table)).1.committed =
      tableAfterFailure table (appliedJobs table completed) failing := by
    have inside : InSavepoint table (PkgDb.connect table).transactionBegin := ⟨rfl, rfl⟩
    have run := executeJobs_fails inside 0 fails
    simp only [pkgJobsExecute, executed, Bool.false_eq_true, if_false, ne_eq, not_true_eq_false]
    exact run
  rw [FollowsDisk, final, HarmlessFailure, tableAfterFailure]
  by_cases removal : failing.isRemoval = true
  · rw [if_pos removal, if_pos removal]
    cases outcome : failing.onDelete with
    | done => exact absurd outcome (fails.delete_fails removal)
    | failedBefore ret =>
        constructor
        · intro _
          exact Or.inl ⟨ret, rfl⟩
        · intro _
          exact PackageTable.SamePackages.refl _
    | failedAfter ret =>
        simp only [reduceCtorEq, exists_false, false_or]
        exact PackageTable.unregister_samePackages_iff
  · rw [if_neg removal, if_neg removal]
    exact PackageTable.SamePackages.comm

/-- The second removal meets a locked package; the first one stays done. -/
theorem lockedRemoval_followsDisk :
    FollowsDisk {} [{ type := .delete, name := "a", uid := "a", version := "1", rowid := 1 },
        { type := .delete, name := "b", uid := "b", version := "1", rowid := 2
          onDelete := .failedBefore ⟨7, by decide⟩ }]
      ⟨[⟨1, "a", "1"⟩, ⟨2, "b", "1"⟩], by decide, by decide⟩
      [{ type := .delete, name := "a", uid := "a", version := "1", rowid := 1 }] := by
  apply (followsDisk_iff {} _ _ _ _ rfl
    (.removed rfl rfl rfl (.removal rfl rfl DeleteOutcome.noConfusion))).mpr
  exact Or.inl ⟨_, rfl⟩

/-- The extraction of the second package fails; the first one is extracted and no
longer registered. -/
theorem failedInstall_not_followsDisk :
    ¬∀ (flags : ExecFlags) (jobs : List ExecJob) (table : PackageTable)
      (completed : List ExecJob) (failing : ExecJob),
      flags.skipInstall = false → FailsAfter flags jobs completed failing →
        FollowsDisk flags jobs table completed := by
  intro claim
  have follows := claim {}
    [{ type := .install, name := "a", uid := "a", version := "1" },
      { type := .install, name := "b", uid := "b", version := "1"
        onAdd := .failedAfter ⟨3, by decide⟩ }]
    ⟨[], List.nodup_nil, List.nodup_nil⟩ _ _ rfl
    (.installed rfl rfl (.install rfl AddOutcome.noConfusion))
  obtain ⟨row, member, _⟩ := (follows "a" "1").mpr ⟨_, List.mem_singleton_self _, rfl, rfl⟩
  cases member

end Pkgng
