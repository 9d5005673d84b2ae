import Mathlib.Data.List.Sort
import Pkgng.Lib.Runs
import Pkgng.Package

/-!
# The database lock

`pkgdb_obtain_lock`, `pkgdb_upgrade_lock`, `pkgdb_downgrade_lock` and
`pkgdb_release_lock` as processes that execute one SQL statement, or one
`kill(pid, 0)`, at a time on the tables `pkg_lock` and `pkg_lock_pid`.  Read
locks are enabled (`READ_LOCK`).
-/

set_option autoImplicit false

namespace Pkgng

/-- `pkgdb_lock_t`. -/
inductive LockType
  | readonly
  | advisory
  | exclusive
deriving DecidableEq, Repr

/-- The only row of `pkg_lock`. -/
structure LockRow where
  exclusive : Nat := 0
  advisory : Nat := 0
  read : Nat := 0
deriving DecidableEq, Repr

def LockRow.column (row : LockRow) : LockType → Nat
  | .readonly => row.read
  | .advisory => row.advisory
  | .exclusive => row.exclusive

theorem LockRow.ext_column {row other : LockRow}
    (column : ∀ type, row.column type = other.column type) : row = other := by
  have exclusive := column .exclusive
  have advisory := column .advisory
  have read := column .readonly
  cases row
  cases other
  simp only [LockRow.column] at exclusive advisory read
  rw [exclusive, advisory, read]

@[simp] theorem LockRow.column_empty (type : LockType) : ({} : LockRow).column type = 0 := by
  cases type <;> rfl

/-- The statements `pkgdb_try_lock` is called with. -/
inductive LockSql
  | obtain (type : LockType)
  | upgrade
  | downgrade
deriving DecidableEq, Repr

namespace LockSql

/-- The type argument that goes with the statement. -/
def type : LockSql → LockType
  | .obtain type => type
  | .upgrade => .exclusive
  | .downgrade => .advisory

/-- The `upgrade` argument, which `pkgdb_downgrade_lock` sets as well. -/
def isUpgrade : LockSql → Bool
  | .obtain _ => false
  | .upgrade => true
  | .downgrade => true

/-- The row after the statement, `none` where its `WHERE` clause does not match
and `sqlite3_changes` is zero. -/
def update (row : LockRow) : LockSql → Option LockRow
  | .obtain .readonly =>
      if row.exclusive = 0 then some { row with read := row.read + 1 } else none
  | .obtain .advisory =>
      if row.exclusive = 0 ∧ row.advisory = 0 then some { row with advisory := 1 } else none
  | .obtain .exclusive =>
      if row.exclusive = 0 ∧ row.advisory = 0 ∧ row.read = 0 then
        some { row with exclusive := 1 }
      else none
  | .upgrade =>
      if row.exclusive = 0 ∧ row.advisory = 1 ∧ row.read = 0 then
        some { row with exclusive := 1, advisory := 1 }
      else none
  | .downgrade =>
      if row.exclusive = 1 ∧ row.advisory = 1 ∧ row.read = 0 then
        some { row with exclusive := 0, advisory := 1 }
      else none

end LockSql

/-- The statement of `pkgdb_release_lock`. -/
def LockType.unlock (row : LockRow) : LockType → Option LockRow
  | .readonly => if 0 < row.read then some { row with read := row.read - 1 } else none
  | .advisory => if row.advisory = 1 then some { row with advisory := 0 } else none
  | .exclusive => if row.exclusive = 1 then some { row with exclusive := 0 } else none

/-! ## What the statements do to a column -/

theorem LockSql.obtain_column {type : LockType} {row next : LockRow}
    (updated : (LockSql.obtain type).update row = some next) (other : LockType) :
    next.column other = row.column other + if other = type then 1 else 0 := by
  cases type <;> simp only [update, Option.ite_none_right_eq_some, Option.some.injEq] at updated <;>
    obtain ⟨guard, rfl⟩ := updated <;> cases other <;> simp [LockRow.column, guard]

theorem LockSql.obtain_free {type : LockType} {row next : LockRow}
    (updated : (LockSql.obtain type).update row = some next) : row.exclusive = 0 := by
  cases type <;> simp only [update, Option.ite_none_right_eq_some] at updated
  · exact updated.1
  · exact updated.1.1
  · exact updated.1.1

theorem LockType.unlock_column {type : LockType} {row next : LockRow}
    (updated : type.unlock row = some next) (other : LockType) :
    next.column other = row.column other - if other = type then 1 else 0 := by
  cases type <;> simp only [unlock, Option.ite_none_right_eq_some, Option.some.injEq] at updated <;>
    obtain ⟨guard, rfl⟩ := updated <;> cases other <;> simp [LockRow.column, guard]

/-! ## Processes -/

/-- One call of `pkgdb_try_lock`: what the process asked for, whether the upgrade
was given up for obtaining the lock from the beginning, and the loop counter. -/
structure Attempt where
  request : LockSql
  startedOver : Bool := false
  tries : Nat := 0
deriving DecidableEq, Repr

def Attempt.sql (attempt : Attempt) : LockSql :=
  if attempt.startedOver then .obtain attempt.request.type else attempt.request

/-- Where a process stands: the statement or the `kill` it executes next. -/
inductive LockPc (Pid : Type)
  | idle
  | execLock (attempt : Attempt)
  | selectPids (attempt : Attempt)
  | checkPid (attempt : Attempt) (rows : List Pid) (found : Nat)
  | removePid (attempt : Attempt) (pid : Pid) (rows : List Pid) (found : Nat)
  | resetLock (attempt : Attempt)
  | removeOwnPid (attempt : Attempt)
  | writePid (attempt : Attempt)
  | execUnlock (type : LockType)
  | removeUnlocked
deriving DecidableEq, Repr

/-- A process.  `held` counts the locks it is past a successful call for and has
not released; `ret` is the result of its last call. -/
structure LockProc (Pid : Type) where
  alive : Bool := true
  pc : LockPc Pid := .idle
  ret : Epkg := .ok
  held : LockType → Nat := fun _ => 0

/-- `pkg_lock`, `pkg_lock_pid` and the processes. -/
structure LockState (Pid : Type) where
  row : LockRow := {}
  pids : List Pid := []
  procs : Pid → LockProc Pid := fun _ => {}

/-- The calls; an upgrade or a downgrade between other types is refused. -/
inductive LockCall
  | obtain (type : LockType)
  | upgrade (oldType newType : LockType)
  | downgrade (oldType newType : LockType)
  | release (type : LockType)
deriving DecidableEq, Repr

/-- What the processes run on: `LOCK_WAIT` and `LOCK_RETRIES`, which process can
write the database, and which process may signal which: `kill` fails with
`EPERM` on a live process as it fails with `ESRCH` on a dead one. -/
structure LockHost (Pid : Type) where
  lockWait : Int := 1
  lockRetries : Int := 1
  writable : Pid → Bool := fun _ => true
  maySignal : Pid → Pid → Bool := fun _ _ => true

/-- The locks of a process after its call for the request succeeded.  An upgrade
keeps the advisory lock. -/
def LockSql.grant (held : LockType → Nat) : LockSql → LockType → Nat
  | .obtain type => Function.update held type (held type + 1)
  | .upgrade => Function.update held .exclusive 1
  | .downgrade =>
      Function.update (Function.update held .exclusive 0) .advisory (max (held .advisory) 1)

namespace LockProc

variable {Pid : Type}

def goto (pc : LockPc Pid) (proc : LockProc Pid) : LockProc Pid := { proc with pc := pc }

/-- The call returns anything but `EPKG_OK`, or is a release. -/
def finish (ret : Epkg) (proc : LockProc Pid) : LockProc Pid :=
  { proc with pc := .idle, ret := ret }

/-- The call for the request returns `EPKG_OK`. -/
def succeed (request : LockSql) (proc : LockProc Pid) : LockProc Pid :=
  { proc with pc := .idle, ret := .ok, held := request.grant proc.held }

/-- The lock is no longer in the row. -/
def unlocked (type : LockType) (proc : LockProc Pid) : LockProc Pid :=
  { proc with
    pc := .removeUnlocked
    held := Function.update proc.held type (proc.held type - 1) }

/-- The head of the loop of `pkgdb_try_lock`. -/
def enterLoop (host : LockHost Pid) (attempt : Attempt) (proc : LockProc Pid) : LockProc Pid :=
  if (attempt.tries : Int) ≤ host.lockRetries then proc.goto (.execLock attempt)
  else proc.finish .finished

/-- After `pkgdb_check_lock_pid` returned something else than `EPKG_END`. -/
def wait (host : LockHost Pid) (attempt : Attempt) (proc : LockProc Pid) : LockProc Pid :=
  if 0 < host.lockWait then proc.enterLoop host { attempt with tries := attempt.tries + 1 }
  else proc.finish .finished

/-- After `pkgdb_reset_lock`, whose result is not looked at. -/
def afterReset (host : LockHost Pid) (attempt : Attempt) (proc : LockProc Pid) :
    LockProc Pid :=
  if attempt.sql.isUpgrade then proc.goto (.removeOwnPid attempt)
  else proc.enterLoop host attempt

/-- `pkgdb_obtain_lock` from within `pkgdb_try_lock`. -/
def startOver (host : LockHost Pid) (attempt : Attempt) (proc : LockProc Pid) : LockProc Pid :=
  proc.enterLoop host { attempt with startedOver := true, tries := 0 }

def begin (host : LockHost Pid) (proc : LockProc Pid) : LockCall → LockProc Pid
  | .obtain type => proc.enterLoop host { request := .obtain type }
  | .upgrade .advisory .exclusive => proc.enterLoop host { request := .upgrade }
  | .upgrade _ _ => proc.finish .fatal
  | .downgrade .exclusive .advisory => proc.enterLoop host { request := .downgrade }
  | .downgrade _ _ => proc.finish .fatal
  | .release type => proc.goto (.execUnlock type)

end LockProc

namespace LockState

variable {Pid : Type} [LinearOrder Pid]

def setProc (state : LockState Pid) (pid : Pid) (proc : LockProc Pid) : LockState Pid :=
  { state with procs := Function.update state.procs pid proc }

def setRow (state : LockState Pid) (row : LockRow) : LockState Pid := { state with row := row }

/-- `pkgdb_remove_lock_pid`. -/
def removePid (state : LockState Pid) (pid : Pid) : LockState Pid :=
  { state with pids := state.pids.filter (· ≠ pid) }

/-- The insertion of `pkgdb_write_lock_pid`; the rows stand in the order of the
primary key. -/
def insertPid (state : LockState Pid) (pid : Pid) : LockState Pid :=
  { state with pids := state.pids.orderedInsert (· ≤ ·) pid }

/-- `kill(pid, 0) == -1`. -/
def killFails (host : LockHost Pid) (state : LockState Pid) (self pid : Pid) : Bool :=
  !(state.procs pid).alive || !host.maySignal self pid

/-- One statement or one `kill` of the process, executed without an error of the
database other than a violated primary key or a database that is not writable. -/
def exec (host : LockHost Pid) (state : LockState Pid) (self : Pid) : LockState Pid :=
  let proc := state.procs self
  match proc.pc with
  | .idle => state
  | .execLock attempt =>
      if !host.writable self then
        if attempt.sql.type = .readonly then state.setProc self (proc.succeed attempt.request)
        else state.setProc self (proc.finish .fatal)
      else
        match attempt.sql.update state.row with
        | none => state.setProc self (proc.goto (.selectPids attempt))
        | some row =>
            if attempt.sql.isUpgrade then
              (state.setRow row).setProc self (proc.succeed attempt.request)
            else (state.setRow row).setProc self (proc.goto (.writePid attempt))
  | .selectPids attempt => state.setProc self (proc.goto (.checkPid attempt state.pids 0))
  | .checkPid attempt [] found =>
      if found = 0 then state.setProc self (proc.goto (.resetLock attempt))
      else state.setProc self (proc.wait host attempt)
  | .checkPid attempt (pid :: rows) found =>
      if pid = self then state.setProc self (proc.goto (.checkPid attempt rows found))
      else if killFails host state self pid then
        state.setProc self (proc.goto (.removePid attempt pid rows found))
      else state.setProc self (proc.goto (.checkPid attempt rows (found + 1)))
  | .removePid attempt pid rows found =>
      (state.removePid pid).setProc self (proc.goto (.checkPid attempt rows found))
  | .resetLock attempt => (state.setRow {}).setProc self (proc.afterReset host attempt)
  | .removeOwnPid attempt => (state.removePid self).setProc self (proc.startOver host attempt)
  | .writePid attempt =>
      if self ∈ state.pids then state.setProc self (proc.finish .fatal)
      else (state.insertPid self).setProc self (proc.succeed attempt.request)
  | .execUnlock type =>
      if !host.writable self then state.setProc self (proc.finish .fatal)
      else
        match type.unlock state.row with
        | none => state.setProc self (proc.finish .finished)
        | some row => (state.setRow row).setProc self (proc.unlocked type)
  | .removeUnlocked => (state.removePid self).setProc self (proc.finish .ok)

/-- The next statement fails with an error of the database. -/
def sqlError (host : LockHost Pid) (state : LockState Pid) (self : Pid) : LockState Pid :=
  let proc := state.procs self
  match proc.pc with
  | .idle => state
  | .execLock _ => state.setProc self (proc.finish .fatal)
  | .selectPids attempt => state.setProc self (proc.wait host attempt)
  | .checkPid _ _ _ => state
  | .removePid attempt _ _ _ => state.setProc self (proc.wait host attempt)
  | .resetLock attempt => state.setProc self (proc.afterReset host attempt)
  | .removeOwnPid attempt => state.setProc self (proc.startOver host attempt)
  | .writePid _ => state.setProc self (proc.finish .fatal)
  | .execUnlock _ => state.setProc self (proc.finish .fatal)
  | .removeUnlocked => state.setProc self (proc.finish .fatal)

end LockState

inductive LockEvent (Pid : Type)
  | call (pid : Pid) (call : LockCall)
  | exec (pid : Pid)
  | sqlError (pid : Pid)
  | die (pid : Pid)
deriving DecidableEq, Repr

/-- A step of any process; a dead process takes none, and only an idle one calls. -/
def lockStep {Pid : Type} [LinearOrder Pid] (host : LockHost Pid) (state : LockState Pid) :
    LockEvent Pid → Option (LockState Pid)
  | .call pid call =>
      if (state.procs pid).alive = true ∧ (state.procs pid).pc = .idle then
        some (state.setProc pid ((state.procs pid).begin host call))
      else none
  | .exec pid => if (state.procs pid).alive then some (state.exec host pid) else none
  | .sqlError pid => if (state.procs pid).alive then some (state.sqlError host pid) else none
  | .die pid => some (state.setProc pid { state.procs pid with alive := false })

end Pkgng
