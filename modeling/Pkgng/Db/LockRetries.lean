import Pkgng.Db.Lock

/-!
# The retries of the database lock

The loop of `pkgdb_try_lock` for one process, while others change the tables.  `pkg_lock` is a
table with any rows here, and the counter of the tries is an `unsigned int`, which is compared
with the 64 bits of `LOCK_RETRIES`.
-/

set_option autoImplicit false

namespace Pkgng

/-- A row of `pkg_lock`; none is NULL. -/
structure LockCells where
  exclusive : Option Int := some 0
  advisory : Option Int := some 0
  read : Option Int := some 0
deriving DecidableEq, Repr

namespace LockSql

/-- The `WHERE` clause. -/
def selects (row : LockCells) : LockSql → Bool
  | .obtain .readonly => row.exclusive = some 0
  | .obtain .advisory => row.exclusive = some 0 ∧ row.advisory = some 0
  | .obtain .exclusive => row.exclusive = some 0 ∧ row.advisory = some 0 ∧ row.read = some 0
  | .upgrade => row.exclusive = some 0 ∧ row.advisory = some 1 ∧ row.read = some 0
  | .downgrade => row.exclusive = some 1 ∧ row.advisory = some 1 ∧ row.read = some 0

/-- The `SET` clause. -/
def assign (row : LockCells) : LockSql → LockCells
  | .obtain .readonly => { row with read := row.read.map (· + 1) }
  | .obtain .advisory => { row with advisory := some 1 }
  | .obtain .exclusive => { row with exclusive := some 1 }
  | .upgrade => { row with exclusive := some 1, advisory := some 1 }
  | .downgrade => { row with exclusive := some 0, advisory := some 1 }

end LockSql

namespace LockType

def unlockSelects (row : LockCells) : LockType → Bool
  | .readonly => row.read.any (0 < ·)
  | .advisory => row.advisory = some 1
  | .exclusive => row.exclusive = some 1

def unlockAssign (row : LockCells) : LockType → LockCells
  | .readonly => { row with read := row.read.map (· - 1) }
  | .advisory => { row with advisory := some 0 }
  | .exclusive => { row with exclusive := some 0 }

end LockType

/-- The row of a table with one row of natural numbers. -/
def LockRow.cells (row : LockRow) : LockCells := ⟨some row.exclusive, some row.advisory, some row.read⟩

theorem cell_eq_iff (n m : Nat) : some (n : Int) = some (m : Int) ↔ n = m := by
  rw [Option.some.injEq, Int.ofNat_inj]

theorem update_cells (row : LockRow) (sql : LockSql) :
    (sql.update row).map LockRow.cells =
      if sql.selects row.cells then some (sql.assign row.cells) else none := by
  have zero (n : Nat) : some (n : Int) = some 0 ↔ n = 0 := cell_eq_iff n 0
  have one (n : Nat) : some (n : Int) = some 1 ↔ n = 1 := cell_eq_iff n 1
  cases sql with
  | obtain type =>
      cases type <;>
        simp only [LockSql.update, LockSql.selects, LockRow.cells, zero, decide_eq_true_eq] <;>
        split <;> rfl
  | upgrade =>
      simp only [LockSql.update, LockSql.selects, LockRow.cells, zero, one, decide_eq_true_eq]
      split <;> rfl
  | downgrade =>
      simp only [LockSql.update, LockSql.selects, LockRow.cells, zero, one, decide_eq_true_eq]
      split <;> rfl

theorem unlock_cells (row : LockRow) (type : LockType) :
    (type.unlock row).map LockRow.cells =
      if type.unlockSelects row.cells then some (type.unlockAssign row.cells) else none := by
  have one (n : Nat) : some (n : Int) = some 1 ↔ n = 1 := cell_eq_iff n 1
  cases type with
  | readonly =>
      simp only [LockType.unlock, LockType.unlockSelects, LockRow.cells, Option.any_some,
        decide_eq_true_eq, Int.natCast_pos]
      split
      · next positive =>
          simp only [Option.map_some, LockRow.cells, LockType.unlockAssign]
          rw [Int.ofNat_sub positive]
          rfl
      · rfl
  | advisory =>
      simp only [LockType.unlock, LockType.unlockSelects, LockRow.cells, one, decide_eq_true_eq]
      split <;> rfl
  | exclusive =>
      simp only [LockType.unlock, LockType.unlockSelects, LockRow.cells, one, decide_eq_true_eq]
      split <;> rfl

/-- The tables, and the pids that `kill` finds. -/
structure LockDb where
  rows : List LockCells
  pids : List Int := []
  answers : Int → Bool := fun _ => false

namespace LockDb

/-- An `UPDATE` of `pkg_lock`. -/
def update (db : LockDb) (selects : LockCells → Bool) (assign : LockCells → LockCells) : LockDb :=
  { db with rows := db.rows.map fun row => if selects row then assign row else row }

def removePid (db : LockDb) (pid : Int) : LockDb :=
  { db with pids := db.pids.filter (· ≠ pid) }

/-- A pid that stands there violates the primary key. -/
def insertPid (db : LockDb) (pid : Int) : LockDb :=
  if pid ∈ db.pids then db else { db with pids := db.pids.orderedInsert (· ≤ ·) pid }

/-- `pkgdb_reset_lock`. -/
def reset (db : LockDb) : LockDb := { db with rows := db.rows.map fun _ => {} }

end LockDb

/-- The statements of other processes, and their lives. -/
inductive OtherAction
  | update (sql : LockSql)
  | unlock (type : LockType)
  | reset
  | insertPid (pid : Int)
  | removePid (pid : Int)
  | start (pid : Int)
  | die (pid : Int)
deriving DecidableEq, Repr

def OtherAction.run (db : LockDb) : OtherAction → LockDb
  | .update sql => db.update sql.selects sql.assign
  | .unlock type => db.update type.unlockSelects type.unlockAssign
  | .reset => db.reset
  | .insertPid pid => db.insertPid pid
  | .removePid pid => db.removePid pid
  | .start pid => { db with answers := Function.update db.answers pid true }
  | .die pid => { db with answers := Function.update db.answers pid false }

/-- The tables and the process in the loop. -/
structure RetryState where
  db : LockDb
  proc : LockProc Int

/-- `tries ++`, where the process waits. -/
def LockProc.nextTry (host : LockHost Int) (attempt : Attempt) (proc : LockProc Int) :
    LockProc Int :=
  if 0 < host.lockWait then
    proc.enterLoop host { attempt with tries := (attempt.tries + 1) % 4294967296 }
  else proc.finish .finished

/-- One statement or one `kill` of the process. -/
def RetryState.step (host : LockHost Int) (self : Int) (state : RetryState) : RetryState :=
  let db := state.db
  let proc := state.proc
  match proc.pc with
  | .idle => state
  | .execLock attempt =>
      if !host.writable self then
        if attempt.sql.type = .readonly then ⟨db, proc.succeed attempt.request⟩
        else ⟨db, proc.finish .fatal⟩
      else if db.rows.any attempt.sql.selects then
        ⟨db.update attempt.sql.selects attempt.sql.assign,
          if attempt.sql.isUpgrade then proc.succeed attempt.request
          else proc.goto (.writePid attempt)⟩
      else ⟨db, proc.goto (.selectPids attempt)⟩
  | .selectPids attempt => ⟨db, proc.goto (.checkPid attempt db.pids 0)⟩
  | .checkPid attempt [] found =>
      if found = 0 then ⟨db, proc.goto (.resetLock attempt)⟩
      else ⟨db, proc.nextTry host attempt⟩
  | .checkPid attempt (pid :: rows) found =>
      if pid = self then ⟨db, proc.goto (.checkPid attempt rows found)⟩
      else if db.answers pid then ⟨db, proc.goto (.checkPid attempt rows (found + 1))⟩
      else ⟨db, proc.goto (.removePid attempt pid rows found)⟩
  | .removePid attempt pid rows found =>
      ⟨db.removePid pid, proc.goto (.checkPid attempt rows found)⟩
  | .resetLock attempt => ⟨db.reset, proc.afterReset host attempt⟩
  | .removeOwnPid attempt => ⟨db.removePid self, proc.startOver host attempt⟩
  | .writePid attempt =>
      if self ∈ db.pids then ⟨db, proc.finish .fatal⟩
      else ⟨db.insertPid self, proc.succeed attempt.request⟩
  | .execUnlock type =>
      if !host.writable self then ⟨db, proc.finish .fatal⟩
      else if db.rows.any type.unlockSelects then
        ⟨db.update type.unlockSelects type.unlockAssign, proc.unlocked type⟩
      else ⟨db, proc.finish .finished⟩
  | .removeUnlocked => ⟨db.removePid self, proc.finish .ok⟩

/-- A turn of the process, or of another one. -/
inductive RetryEvent
  | own
  | other (action : OtherAction)
deriving DecidableEq, Repr

def RetryState.event (host : LockHost Int) (self : Int) (state : RetryState) :
    RetryEvent → RetryState
  | .own => state.step host self
  | .other action => { state with db := action.run state.db }

def RetryState.run (host : LockHost Int) (self : Int) (state : RetryState)
    (events : List RetryEvent) : RetryState :=
  events.foldl (RetryState.event host self) state

/-- The call for the request; `readLock` is `READ_LOCK`. -/
def LockSql.call (host : LockHost Int) (readLock : Bool) (request : LockSql) : LockProc Int :=
  if request = .obtain .readonly ∧ readLock = false then ({} : LockProc Int).finish .ok
  else ({} : LockProc Int).enterLoop host { request }

/-- Whatever others do, once they are done the call returns after so many turns. -/
def AlwaysReturns (host : LockHost Int) (self : Int) (readLock : Bool) (request : LockSql)
    (db : LockDb) : Prop :=
  ∀ events : List RetryEvent, ∃ n : Nat,
    (RetryState.run host self ⟨db, request.call host readLock⟩
      (events ++ List.replicate n .own)).proc.pc = .idle

/-! ## The processes of the lock

A table with the one row that the schema puts into it, and a count of the tries that does not wrap,
are as `LockState` has them. -/

/-- What one process sees of the state. -/
def LockState.retryDb (host : LockHost Int) (state : LockState Int) (self : Int) : LockDb where
  rows := [state.row.cells]
  pids := state.pids
  answers := fun pid => !state.killFails host self pid

@[simp] theorem setProc_procs (state : LockState Int) (self : Int) (proc : LockProc Int) :
    (state.setProc self proc).procs self = proc :=
  Function.update_self ..

theorem retryDb_setProc {host : LockHost Int} {state : LockState Int} {self : Int}
    {proc : LockProc Int} (alive : proc.alive = (state.procs self).alive) :
    (state.setProc self proc).retryDb host self = state.retryDb host self := by
  have same : (state.setProc self proc).killFails host self = state.killFails host self := by
    funext pid
    unfold LockState.killFails
    by_cases own : pid = self
    · rw [own, setProc_procs, alive]
    · have kept : (state.setProc self proc).procs pid = state.procs pid :=
        Function.update_of_ne own ..
      rw [kept]
  unfold LockState.retryDb
  rw [same]
  rfl

theorem alive_enterLoop (host : LockHost Int) (attempt : Attempt) (proc : LockProc Int) :
    (proc.enterLoop host attempt).alive = proc.alive := by
  unfold LockProc.enterLoop
  split <;> rfl

theorem nextTry_eq {host : LockHost Int} {attempt : Attempt} {proc : LockProc Int}
    (counted : attempt.tries + 1 < 4294967296) : proc.nextTry host attempt = proc.wait host attempt := by
  unfold LockProc.nextTry LockProc.wait
  rw [Nat.mod_eq_of_lt counted]

theorem alive_wait (host : LockHost Int) (attempt : Attempt) (proc : LockProc Int) :
    (proc.wait host attempt).alive = proc.alive := by
  unfold LockProc.wait
  split
  · exact alive_enterLoop host _ proc
  · rfl

theorem alive_afterReset (host : LockHost Int) (attempt : Attempt) (proc : LockProc Int) :
    (proc.afterReset host attempt).alive = proc.alive := by
  unfold LockProc.afterReset
  split
  · rfl
  · exact alive_enterLoop host attempt proc

section OneRow

variable {host : LockHost Int} {state : LockState Int} {self : Int} {result : Option LockRow}
  (selects : LockCells → Bool) (assign : LockCells → LockCells)
  (updated : result.map LockRow.cells =
    if selects state.row.cells then some (assign state.row.cells) else none)

include updated

theorem oneRow_none (missed : result = none) :
    (state.retryDb host self).rows.any selects = false := by
  rw [missed, Option.map_none, eq_comm, ite_eq_right_iff] at updated
  have refused : selects state.row.cells = false := by
    cases selected : selects state.row.cells with
    | false => rfl
    | true => exact absurd (updated selected) (Option.some_ne_none _)
  simp only [LockState.retryDb, List.any_cons, refused, List.any_nil, Bool.or_self]

theorem oneRow_some {next : LockRow} (hit : result = some next) :
    (state.retryDb host self).rows.any selects = true ∧
      (state.retryDb host self).update selects assign = (state.setRow next).retryDb host self := by
  rw [hit, Option.map_some] at updated
  split at updated
  · next selected =>
      have cells : next.cells = assign state.row.cells := Option.some.inj updated
      constructor
      · simp only [LockState.retryDb, List.any_cons, selected, Bool.true_or]
      · simp only [LockState.retryDb, LockDb.update, List.map_cons, List.map_nil, selected, if_true]
        rw [← cells]
        rfl
  · cases updated

end OneRow

/-- One statement of a process, in both models. -/
theorem step_exec (host : LockHost Int) (state : LockState Int) (self : Int)
    (counted : ∀ attempt found, (state.procs self).pc = .checkPid attempt [] found →
      attempt.tries + 1 < 4294967296) :
    RetryState.step host self ⟨state.retryDb host self, state.procs self⟩ =
      ⟨(state.exec host self).retryDb host self, (state.exec host self).procs self⟩ := by
  -- the tables are those of another state, where the processes are the same
  have stands (before : LockState Int) (proc : LockProc Int) (sameProcs : before.procs = state.procs)
      (alive : proc.alive = (state.procs self).alive) :
      (⟨before.retryDb host self, proc⟩ : RetryState) =
        ⟨(before.setProc self proc).retryDb host self, (before.setProc self proc).procs self⟩ := by
    rw [retryDb_setProc (sameProcs ▸ alive), setProc_procs]
  cases pc : (state.procs self).pc with
  | idle => simp only [RetryState.step, LockState.exec, pc]
  | execLock attempt =>
      have updated := update_cells state.row attempt.sql
      simp only [RetryState.step, LockState.exec, pc]
      split
      · split <;> exact stands state _ rfl rfl
      · cases row : attempt.sql.update state.row with
        | none =>
            have refused := @oneRow_none host state self _
              attempt.sql.selects attempt.sql.assign updated row
            simp only [refused, Bool.false_eq_true, if_false]
            exact stands state _ rfl rfl
        | some next =>
            obtain ⟨gives, sets⟩ := @oneRow_some host state self _
              attempt.sql.selects attempt.sql.assign updated next row
            simp only [gives, sets, if_true]
            cases attempt.sql.isUpgrade with
            | true => exact stands (state.setRow next) _ rfl rfl
            | false => exact stands (state.setRow next) _ rfl rfl
  | selectPids attempt =>
      simp only [RetryState.step, LockState.exec, pc]
      exact stands state _ rfl rfl
  | checkPid attempt pids found =>
      cases pids with
      | nil =>
          simp only [RetryState.step, LockState.exec, pc]
          split
          · exact stands state _ rfl rfl
          · rw [nextTry_eq (counted attempt found pc)]
            exact stands state _ rfl (alive_wait host attempt _)
      | cons pid pids =>
          simp only [RetryState.step, LockState.exec, pc]
          split
          · exact stands state _ rfl rfl
          · cases fails : state.killFails host self pid with
            | true =>
                simp only [LockState.retryDb, fails, Bool.not_true, Bool.false_eq_true, if_false,
                  if_true]
                exact stands state _ rfl rfl
            | false =>
                simp only [LockState.retryDb, fails, Bool.not_false, Bool.false_eq_true, if_false,
                  if_true]
                exact stands state _ rfl rfl
  | removePid attempt pid pids found =>
      simp only [RetryState.step, LockState.exec, pc]
      exact stands (state.removePid pid) _ rfl rfl
  | resetLock attempt =>
      simp only [RetryState.step, LockState.exec, pc]
      exact stands (state.setRow {}) _ rfl (alive_afterReset host attempt _)
  | removeOwnPid attempt =>
      simp only [RetryState.step, LockState.exec, pc]
      exact stands (state.removePid self) _ rfl (alive_enterLoop host _ _)
  | writePid attempt =>
      simp only [RetryState.step, LockState.exec, pc]
      have here : self ∈ (state.retryDb host self).pids ↔ self ∈ state.pids := Iff.rfl
      by_cases member : self ∈ state.pids
      · rw [if_pos (here.mpr member), if_pos member]
        exact stands state _ rfl rfl
      · rw [if_neg (mt here.mp member), if_neg member, LockDb.insertPid, if_neg (mt here.mp member)]
        exact stands (state.insertPid self) _ rfl rfl
  | execUnlock type =>
      have updated := unlock_cells state.row type
      simp only [RetryState.step, LockState.exec, pc]
      split
      · exact stands state _ rfl rfl
      · cases row : type.unlock state.row with
        | none =>
            have refused := @oneRow_none host state self _
              type.unlockSelects type.unlockAssign updated row
            simp only [refused, Bool.false_eq_true, if_false]
            exact stands state _ rfl rfl
        | some next =>
            obtain ⟨gives, sets⟩ := @oneRow_some host state self _
              type.unlockSelects type.unlockAssign updated next row
            simp only [gives, sets, if_true]
            exact stands (state.setRow next) _ rfl rfl
  | removeUnlocked =>
      simp only [RetryState.step, LockState.exec, pc]
      exact stands (state.removePid self) _ rfl rfl

/-! ## The process alone -/

/-- Alone the process comes to the end of its call. -/
def RetryState.Halts (host : LockHost Int) (self : Int) (state : RetryState) : Prop :=
  ∃ n, ((RetryState.step host self)^[n] state).proc.pc = .idle

section Alone

variable {host : LockHost Int} {self : Int} {state : RetryState} {db : LockDb}
  {proc : LockProc Int} {attempt : Attempt}

theorem halts_of_idle (idle : state.proc.pc = .idle) : state.Halts host self := ⟨0, idle⟩

theorem halts_of_step (halts : (state.step host self).Halts host self) :
    state.Halts host self := by
  obtain ⟨n, idle⟩ := halts
  exact ⟨n + 1, idle⟩

theorem step_idle (idle : state.proc.pc = .idle) : state.step host self = state := by
  simp only [RetryState.step, idle]

/-- The row that `pkgdb_reset_lock` leaves gives every lock. -/
theorem selects_reset (attempt : Attempt) (obtains : attempt.sql.isUpgrade = false) :
    attempt.sql.selects {} = true := by
  generalize attempt.sql = sql at obtains
  cases sql with
  | obtain type => cases type <;> rfl
  | upgrade => cases obtains
  | downgrade => cases obtains

/-- Obtaining a lock in a table of such rows. -/
theorem halts_reset (rows : db.rows ≠ []) (isReset : ∀ row ∈ db.rows, row = {})
    (obtains : attempt.sql.isUpgrade = false) :
    (RetryState.mk db (proc.enterLoop host attempt)).Halts host self := by
  unfold LockProc.enterLoop
  split
  · have gives : db.rows.any attempt.sql.selects = true := by
      obtain ⟨row, member⟩ := List.exists_mem_of_ne_nil _ rows
      refine List.any_eq_true.mpr ⟨row, member, ?_⟩
      rw [isReset row member]
      exact selects_reset attempt obtains
    refine halts_of_step ?_
    simp only [RetryState.step, LockProc.goto, gives, obtains]
    split
    · split <;> exact halts_of_idle rfl
    · refine halts_of_step ?_
      simp only [RetryState.step, if_true, Bool.false_eq_true, if_false]
      split <;> exact halts_of_idle rfl
  · exact halts_of_idle rfl

theorem halts_reset_removed (rows : db.rows ≠ []) (isReset : ∀ row ∈ db.rows, row = {}) :
    (RetryState.mk (db.removePid self) (proc.startOver host attempt)).Halts host self := by
  have kept : (db.removePid self).rows = db.rows := rfl
  exact halts_reset (kept ▸ rows) (kept ▸ isReset) rfl

theorem halts_afterReset (rows : db.rows ≠ []) :
    (RetryState.mk db (proc.goto (.resetLock attempt))).Halts host self := by
  have reset : db.reset.rows ≠ [] := by simpa [LockDb.reset] using rows
  have isReset : ∀ row ∈ db.reset.rows, row = {} := by
    intro row member
    obtain ⟨_, _, rfl⟩ := List.mem_map.mp member
    rfl
  refine halts_of_step ?_
  simp only [RetryState.step, LockProc.goto, LockProc.afterReset]
  split
  · refine halts_of_step ?_
    exact halts_reset_removed reset isReset
  · next obtains => exact halts_reset reset isReset (Bool.not_eq_true _ ▸ obtains)

/-- The loop over the pids keeps the rows, and goes on to a reset or to the next try. -/
theorem halts_checkPid (rows : db.rows ≠ [])
    (next : ∀ after : LockDb, after.rows = db.rows →
      (RetryState.mk after (proc.nextTry host attempt)).Halts host self)
    (pids : List Int) (found : Nat) :
    (RetryState.mk db (proc.goto (.checkPid attempt pids found))).Halts host self := by
  induction pids generalizing db found with
  | nil =>
      refine halts_of_step ?_
      simp only [RetryState.step, LockProc.goto]
      split
      · exact halts_afterReset rows
      · exact next db rfl
  | cons pid pids ih =>
      refine halts_of_step ?_
      simp only [RetryState.step, LockProc.goto]
      split
      · exact ih rows next found
      · split
        · exact ih rows next (found + 1)
        · refine halts_of_step ?_
          have kept : (db.removePid pid).rows = db.rows := rfl
          exact ih (kept ▸ rows) (fun after same => next after (same.trans kept)) found

theorem halts_execLock (rows : db.rows ≠ [])
    (next : ∀ after : LockDb, after.rows = db.rows →
      (RetryState.mk after (proc.nextTry host attempt)).Halts host self) :
    (RetryState.mk db (proc.goto (.execLock attempt))).Halts host self := by
  refine halts_of_step ?_
  simp only [RetryState.step, LockProc.goto]
  split
  · split <;> exact halts_of_idle rfl
  · split
    · split
      · exact halts_of_idle rfl
      · refine halts_of_step ?_
        simp only [RetryState.step]
        split <;> exact halts_of_idle rfl
    · refine halts_of_step ?_
      exact halts_checkPid rows next db.pids 0

/-- The tries are counted up to `LOCK_RETRIES`, or there is only one. -/
theorem halts_enterLoop (bounded : host.lockRetries < 4294967295 ∨ host.lockWait ≤ 0)
    (rows : db.rows ≠ []) :
    (RetryState.mk db (proc.enterLoop host attempt)).Halts host self := by
  induction left : (host.lockRetries + 1 - attempt.tries).toNat using Nat.strong_induction_on
    generalizing db attempt with
  | h left ih =>
      unfold LockProc.enterLoop
      split
      · next within =>
          refine halts_execLock rows fun after same => ?_
          unfold LockProc.nextTry
          split
          · next waits =>
              have small : host.lockRetries < 4294967295 := bounded.resolve_right (by omega)
              have counted : (attempt.tries + 1) % 4294967296 = attempt.tries + 1 := by omega
              rw [counted]
              refine ih _ ?_ (same ▸ rows) rfl
              dsimp only
              omega
          · exact halts_of_idle rfl
      · exact halts_of_idle rfl

theorem halts_nextTry (bounded : host.lockRetries < 4294967295 ∨ host.lockWait ≤ 0)
    (rows : db.rows ≠ []) :
    (RetryState.mk db (proc.nextTry host attempt)).Halts host self := by
  unfold LockProc.nextTry
  split
  · exact halts_enterLoop bounded rows
  · exact halts_of_idle rfl

/-- Wherever the process stands. -/
theorem halts_of_bounded (bounded : host.lockRetries < 4294967295 ∨ host.lockWait ≤ 0)
    (rows : db.rows ≠ []) : (RetryState.mk db proc).Halts host self := by
  have next (attempt : Attempt) (after : LockDb) (same : after.rows = db.rows) :
      (RetryState.mk after (proc.nextTry host attempt)).Halts host self :=
    halts_nextTry bounded (same ▸ rows)
  have stands : proc = proc.goto proc.pc := rfl
  cases pc : proc.pc with
  | idle => exact halts_of_idle pc
  | execLock attempt =>
      rw [stands, pc]
      exact halts_execLock rows (next attempt)
  | selectPids attempt =>
      rw [stands, pc]
      exact halts_of_step (halts_checkPid rows (next attempt) db.pids 0)
  | checkPid attempt pids found =>
      rw [stands, pc]
      exact halts_checkPid rows (next attempt) pids found
  | removePid attempt pid pids found =>
      rw [stands, pc]
      refine halts_of_step ?_
      have kept : (db.removePid pid).rows = db.rows := rfl
      exact halts_checkPid (kept ▸ rows) (fun after same => next attempt after (same.trans kept))
        pids found
  | resetLock attempt =>
      rw [stands, pc]
      exact halts_afterReset rows
  | removeOwnPid attempt =>
      rw [stands, pc]
      refine halts_of_step ?_
      have kept : (db.removePid self).rows = db.rows := rfl
      exact halts_enterLoop bounded (kept ▸ rows)
  | writePid attempt =>
      refine halts_of_step ?_
      simp only [RetryState.step, pc]
      split <;> exact halts_of_idle rfl
  | execUnlock type =>
      refine halts_of_step ?_
      simp only [RetryState.step, pc]
      split
      · exact halts_of_idle rfl
      · split
        · exact halts_of_step (halts_of_idle rfl)
        · exact halts_of_idle rfl
  | removeUnlocked =>
      refine halts_of_step ?_
      simp only [RetryState.step, pc]
      exact halts_of_idle rfl

end Alone

/-! ## Runs without an end -/

section Runs

variable {host : LockHost Int} {self : Int} {state : RetryState}

theorem run_replicate (n : Nat) :
    state.run host self (List.replicate n .own) = (RetryState.step host self)^[n] state := by
  induction n generalizing state with
  | zero => rfl
  | succ n ih =>
      simp only [RetryState.run, List.replicate_succ, List.foldl_cons, Function.iterate_succ_apply]
      exact ih

theorem run_append (first second : List RetryEvent) :
    state.run host self (first ++ second) = (state.run host self first).run host self second :=
  List.foldl_append

theorem run_keeps {kept : RetryState → Prop}
    (step : ∀ state event, kept state → kept (state.event host self event))
    (events : List RetryEvent) (starts : kept state) : kept (state.run host self events) := by
  induction events generalizing state with
  | nil => exact starts
  | cons event events ih => exact ih (step state event starts)

theorem alwaysReturns_of_halts {readLock : Bool} {request : LockSql} {db : LockDb}
    {kept : RetryState → Prop} (starts : kept ⟨db, request.call host readLock⟩)
    (step : ∀ state event, kept state → kept (state.event host self event))
    (halts : ∀ state, kept state → state.Halts host self) :
    AlwaysReturns host self readLock request db := by
  intro events
  obtain ⟨n, idle⟩ := halts _ (run_keeps step events starts)
  refine ⟨n, ?_⟩
  rw [run_append, run_replicate]
  exact idle

theorem idle_event (event : RetryEvent) (idle : state.proc.pc = .idle) :
    (state.event host self event).proc.pc = .idle := by
  cases event with
  | own => rw [RetryState.event, step_idle idle]; exact idle
  | other action => exact idle

/-- No statement removes a row of `pkg_lock`. -/
theorem rows_action (db : LockDb) (action : OtherAction) (rows : db.rows ≠ []) :
    (action.run db).rows ≠ [] := by
  cases action with
  | insertPid pid =>
      simp only [OtherAction.run, LockDb.insertPid]
      split <;> exact rows
  | update sql => exact mt List.map_eq_nil_iff.mp rows
  | unlock type => exact mt List.map_eq_nil_iff.mp rows
  | reset => exact mt List.map_eq_nil_iff.mp rows
  | removePid pid => exact rows
  | start pid => exact rows
  | die pid => exact rows

theorem rows_step (rows : state.db.rows ≠ []) : (state.step host self).db.rows ≠ [] := by
  obtain ⟨db, proc⟩ := state
  have mapped (f : LockCells → LockCells) : db.rows.map f ≠ [] := mt List.map_eq_nil_iff.mp rows
  cases pc : proc.pc with
  | execLock attempt =>
      simp only [RetryState.step, pc]
      split
      · split <;> exact rows
      · split
        · exact mapped _
        · exact rows
  | checkPid attempt pids found =>
      cases pids with
      | nil =>
          simp only [RetryState.step, pc]
          split <;> exact rows
      | cons pid pids =>
          simp only [RetryState.step, pc]
          split
          · exact rows
          · split <;> exact rows
  | resetLock attempt =>
      simp only [RetryState.step, pc]
      exact mapped _
  | writePid attempt =>
      simp only [RetryState.step, pc]
      split
      · exact rows
      · exact rows_action db (.insertPid self) rows
  | execUnlock type =>
      simp only [RetryState.step, pc]
      split
      · exact rows
      · split
        · exact mapped _
        · exact rows
  | _ =>
      simp only [RetryState.step, pc]
      exact rows

/-- What every turn of the process keeps, and what no idle process has. -/
theorem not_alwaysReturns {readLock : Bool} {request : LockSql} {db : LockDb}
    {kept : RetryState → Prop} (events : List RetryEvent)
    (starts : kept (RetryState.run host self ⟨db, request.call host readLock⟩ events))
    (step : ∀ state, kept state → kept (state.step host self))
    (busy : ∀ state, kept state → state.proc.pc ≠ .idle) :
    ¬AlwaysReturns host self readLock request db := by
  intro returns
  obtain ⟨n, idle⟩ := returns events
  rw [run_append, run_replicate] at idle
  have still : kept ((RetryState.step host self)^[n]
      (RetryState.run host self ⟨db, request.call host readLock⟩ events)) := by
    clear idle
    generalize RetryState.run host self ⟨db, request.call host readLock⟩ events = state at starts
    induction n generalizing state with
    | zero => exact starts
    | succ n ih =>
        rw [Function.iterate_succ_apply]
        exact ih _ (step state starts)
  exact busy _ still idle

/-- With no row in `pkg_lock` and no other pid that answers, the process resets the lock again and
again, in the same try. -/
def KeepsResetting (self : Int) (state : RetryState) : Prop :=
  state.db.rows = [] ∧ (∀ pid ∈ state.db.pids, pid ≠ self → state.db.answers pid = false) ∧
    match state.proc.pc with
    | .execLock attempt => attempt.tries = 0
    | .selectPids attempt => attempt.tries = 0
    | .checkPid attempt pids found => attempt.tries = 0 ∧ found = 0 ∧
        ∀ pid ∈ pids, pid ≠ self → state.db.answers pid = false
    | .removePid attempt _ pids found => attempt.tries = 0 ∧ found = 0 ∧
        ∀ pid ∈ pids, pid ≠ self → state.db.answers pid = false
    | .resetLock attempt => attempt.tries = 0
    | .removeOwnPid attempt => attempt.tries = 0
    | _ => False

theorem keepsResetting_step (writable : host.writable self = true) (retries : 0 ≤ host.lockRetries)
    (kept : KeepsResetting self state) : KeepsResetting self (state.step host self) := by
  obtain ⟨db, proc⟩ := state
  obtain ⟨noRow, silent, place⟩ := kept
  dsimp only at noRow silent place
  have enter (attempt : Attempt) (first : attempt.tries = 0) :
      (proc.enterLoop host attempt).pc = .execLock attempt := by
    have within : (attempt.tries : Int) ≤ host.lockRetries := by omega
    rw [LockProc.enterLoop, if_pos within]
    rfl
  have removed (pid : Int) : ∀ other ∈ (db.removePid pid).pids, other ≠ self →
      db.answers other = false :=
    fun other member => silent other (List.mem_of_mem_filter member)
  cases pc : proc.pc with
  | execLock attempt =>
      rw [pc] at place
      simp only [RetryState.step, pc, writable, noRow, List.any_nil, Bool.not_true,
        Bool.false_eq_true, if_false]
      exact ⟨noRow, silent, place⟩
  | selectPids attempt =>
      rw [pc] at place
      simp only [RetryState.step, pc]
      exact ⟨noRow, silent, place, rfl, silent⟩
  | checkPid attempt pids found =>
      rw [pc] at place
      obtain ⟨first, rfl, listed⟩ := place
      cases pids with
      | nil =>
          simp only [RetryState.step, pc, if_true]
          exact ⟨noRow, silent, first⟩
      | cons pid pids =>
          have rest := (List.forall_mem_cons.mp listed).2
          by_cases own : pid = self
          · simp only [RetryState.step, pc, own, if_true]
            exact ⟨noRow, silent, first, rfl, rest⟩
          · have dead := listed pid List.mem_cons_self own
            simp only [RetryState.step, pc, own, dead, Bool.false_eq_true, if_false]
            exact ⟨noRow, silent, first, rfl, rest⟩
  | removePid attempt pid pids found =>
      rw [pc] at place
      obtain ⟨first, rfl, listed⟩ := place
      simp only [RetryState.step, pc]
      exact ⟨noRow, removed pid, first, rfl, listed⟩
  | resetLock attempt =>
      rw [pc] at place
      have reset : db.reset.rows = [] := by rw [LockDb.reset, noRow, List.map_nil]
      simp only [RetryState.step, pc, LockProc.afterReset]
      split
      · exact ⟨reset, silent, place⟩
      · refine ⟨reset, silent, ?_⟩
        rw [enter attempt place]
        exact place
  | removeOwnPid attempt =>
      simp only [RetryState.step, pc, LockProc.startOver]
      refine ⟨noRow, removed self, ?_⟩
      rw [enter _ rfl]
  | _ =>
      rw [pc] at place
      exact place.elim

/-- Another process holds the exclusive lock and lives; the count of the tries never passes
`LOCK_RETRIES`. -/
def KeepsWaiting (self : Int) (state : RetryState) : Prop :=
  (∀ row ∈ state.db.rows, row = { exclusive := some 1 }) ∧ self + 1 ∈ state.db.pids ∧
    state.db.answers (self + 1) = true ∧
    match state.proc.pc with
    | .execLock _ => True
    | .selectPids _ => True
    | .checkPid _ pids found => 0 < found ∨ self + 1 ∈ pids
    | .removePid _ pid pids found => pid ≠ self + 1 ∧ (0 < found ∨ self + 1 ∈ pids)
    | _ => False

theorem selects_exclusive (sql : LockSql) : sql.selects { exclusive := some 1 } = false := by
  cases sql with
  | obtain type => cases type <;> rfl
  | upgrade => rfl
  | downgrade => rfl

theorem keepsWaiting_step (writable : host.writable self = true)
    (retries : 4294967295 ≤ host.lockRetries) (waits : 0 < host.lockWait)
    (kept : KeepsWaiting self state) : KeepsWaiting self (state.step host self) := by
  obtain ⟨db, proc⟩ := state
  obtain ⟨taken, stands, lives, place⟩ := kept
  dsimp only at taken stands lives place
  cases pc : proc.pc with
  | execLock attempt =>
      have refused : db.rows.any attempt.sql.selects = false := by
        refine List.any_eq_false.mpr fun row member => ?_
        rw [taken row member, selects_exclusive]
        exact Bool.false_ne_true
      simp only [RetryState.step, pc, writable, refused, Bool.not_true, Bool.false_eq_true,
        if_false]
      exact ⟨taken, stands, lives, trivial⟩
  | selectPids attempt =>
      simp only [RetryState.step, pc]
      exact ⟨taken, stands, lives, .inr stands⟩
  | checkPid attempt pids found =>
      rw [pc] at place
      cases pids with
      | nil =>
          have positive : 0 < found := place.resolve_right List.not_mem_nil
          have within : (((attempt.tries + 1) % 4294967296 : Nat) : Int) ≤ host.lockRetries := by
            omega
          simp only [RetryState.step, pc, if_neg (Nat.ne_of_gt positive), LockProc.nextTry,
            if_pos waits, LockProc.enterLoop, if_pos within]
          exact ⟨taken, stands, lives, trivial⟩
      | cons pid pids =>
          by_cases own : pid = self
          · simp only [RetryState.step, pc, own, if_true]
            refine ⟨taken, stands, lives, place.imp_right fun listed => ?_⟩
            exact (List.mem_cons.mp listed).resolve_left (by omega)
          · cases answers : db.answers pid with
            | true =>
                simp only [RetryState.step, pc, own, answers, if_true, if_false]
                exact ⟨taken, stands, lives, .inl (Nat.succ_pos found)⟩
            | false =>
                have other : pid ≠ self + 1 := by
                  rintro rfl
                  exact Bool.false_ne_true (answers.symm.trans lives)
                simp only [RetryState.step, pc, own, answers, Bool.false_eq_true, if_false]
                refine ⟨taken, stands, lives, other, place.imp_right fun listed => ?_⟩
                exact (List.mem_cons.mp listed).resolve_left (Ne.symm other)
  | removePid attempt pid pids found =>
      rw [pc] at place
      simp only [RetryState.step, pc]
      refine ⟨taken, ?_, lives, place.2⟩
      exact List.mem_filter.mpr ⟨stands, decide_eq_true (Ne.symm place.1)⟩
  | _ =>
      rw [pc] at place
      exact place.elim

theorem call_pc {readLock : Bool} {request : LockSql}
    (asks : ¬(request = .obtain .readonly ∧ readLock = false)) (retries : 0 ≤ host.lockRetries) :
    (request.call host readLock).pc = .execLock { request } := by
  rw [LockSql.call, if_neg asks]
  exact congrArg LockProc.pc (if_pos retries)

theorem returns_readOnly {readLock : Bool} {request : LockSql} {db : LockDb}
    (readOnly : host.writable self = false) : AlwaysReturns host self readLock request db := by
  let kept (state : RetryState) : Prop :=
    state.proc.pc = .idle ∨ ∃ attempt, state.proc.pc = .execLock attempt
  have fails (state : RetryState) (here : kept state) : (state.step host self).proc.pc = .idle := by
    obtain idle | ⟨attempt, pc⟩ := here
    · rw [step_idle idle]
      exact idle
    · simp only [RetryState.step, pc, readOnly, Bool.not_false, if_true]
      split <;> rfl
  refine @alwaysReturns_of_halts _ _ _ _ _ kept ?_ ?_ ?_
  · unfold LockSql.call LockProc.enterLoop
    split
    · exact .inl rfl
    · split
      · exact .inr ⟨_, rfl⟩
      · exact .inl rfl
  · intro state event here
    cases event with
    | own => exact .inl (fails state here)
    | other action => exact here
  · intro state here
    exact halts_of_step (halts_of_idle (fails state here))

/-- The others die, and the process is alone with a table that has no row. -/
theorem not_alwaysReturns_noRow {readLock : Bool} {request : LockSql} {db : LockDb}
    (asks : ¬(request = .obtain .readonly ∧ readLock = false))
    (writable : host.writable self = true) (retries : 0 ≤ host.lockRetries) (noRow : db.rows = []) :
    ¬AlwaysReturns host self readLock request db := by
  have dying (proc : LockProc Int) (pids : List Int) (before : LockDb) :
      ∃ answers : Int → Bool,
        RetryState.run host self ⟨before, proc⟩
          (pids.map fun pid => .other (.die pid)) = ⟨{ before with answers := answers }, proc⟩ ∧
        ∀ pid, pid ∈ pids ∨ before.answers pid = false → answers pid = false := by
    induction pids generalizing before with
    | nil => exact ⟨before.answers, rfl, fun pid dead => dead.resolve_left List.not_mem_nil⟩
    | cons first pids ih =>
        obtain ⟨answers, run, dead⟩ := ih ((OtherAction.die first).run before)
        refine ⟨answers, run, fun pid gone => dead pid ?_⟩
        rw [List.mem_cons] at gone
        by_cases isFirst : pid = first
        · exact .inr (isFirst ▸ Function.update_self ..)
        · refine (gone.imp_left fun listed => listed.resolve_left isFirst).imp_right ?_
          exact (Function.update_of_ne isFirst ..).trans
  let others := db.pids.filter (· ≠ self)
  obtain ⟨answers, run, dead⟩ := dying (request.call host readLock) others db
  refine @not_alwaysReturns _ _ _ _ _ (KeepsResetting self)
    (others.map fun pid => .other (.die pid)) ?_
    (fun state => keepsResetting_step writable retries) fun state kept idle => ?_
  · rw [run]
    refine ⟨noRow, fun pid member different => ?_, ?_⟩
    · exact dead pid (.inl (List.mem_filter.mpr ⟨member, decide_eq_true different⟩))
    · rw [call_pc asks retries]
  · have place := kept.2.2
    rw [idle] at place
    exact place

/-- Another process takes the exclusive lock, and keeps it. -/
theorem not_alwaysReturns_unbounded {readLock : Bool} {request : LockSql} {db : LockDb}
    (asks : ¬(request = .obtain .readonly ∧ readLock = false))
    (writable : host.writable self = true) (retries : 4294967295 ≤ host.lockRetries)
    (waits : 0 < host.lockWait) : ¬AlwaysReturns host self readLock request db := by
  have first : 0 ≤ host.lockRetries := by omega
  refine @not_alwaysReturns _ _ _ _ _ (KeepsWaiting self) [.other (.start (self + 1)),
    .other .reset, .other (.update (.obtain .exclusive)), .other (.insertPid (self + 1))] ?_
    (fun state => keepsWaiting_step writable retries waits) fun state kept idle => ?_
  · have inserted (before : LockDb) : self + 1 ∈ (before.insertPid (self + 1)).pids ∧
        (before.insertPid (self + 1)).rows = before.rows ∧
        (before.insertPid (self + 1)).answers = before.answers := by
      unfold LockDb.insertPid
      split
      · next member => exact ⟨member, rfl, rfl⟩
      · exact ⟨(List.mem_orderedInsert (· ≤ ·)).mpr (.inl rfl), rfl, rfl⟩
    obtain ⟨stands, rows, answers⟩ := inserted ((OtherAction.update (.obtain .exclusive)).run
      (OtherAction.reset.run ((OtherAction.start (self + 1)).run db)))
    refine ⟨fun row member => ?_, stands, ?_, ?_⟩
    · replace member := rows ▸ member
      obtain ⟨reset, isReset, rfl⟩ := List.mem_map.mp member
      obtain ⟨old, listed, rfl⟩ := List.mem_map.mp isReset
      rfl
    · exact (congrFun answers _).trans (Function.update_self ..)
    · have same : (RetryState.run host self ⟨db, request.call host readLock⟩
          [.other (.start (self + 1)), .other .reset, .other (.update (.obtain .exclusive)),
            .other (.insertPid (self + 1))]).proc = request.call host readLock := rfl
      rw [same, call_pc asks first]
      trivial
  · have place := kept.2.2.2
    rw [idle] at place
    exact place

end Runs

/-- The call returns whatever the others do: where no lock is asked for or none can be written,
where no try is made, and where `pkg_lock` has a row and the tries end below the bound of the
counter. -/
theorem alwaysReturns_iff (host : LockHost Int) (self : Int) (readLock : Bool) (request : LockSql)
    (db : LockDb) :
    AlwaysReturns host self readLock request db ↔
      (request = .obtain .readonly ∧ readLock = false) ∨ host.writable self = false ∨
        host.lockRetries < 0 ∨
        (db.rows ≠ [] ∧ (host.lockRetries < 4294967295 ∨ host.lockWait ≤ 0)) := by
  constructor
  · intro returns
    by_contra fails
    simp only [not_or, not_and, Bool.not_eq_false, not_lt, not_le] at fails
    obtain ⟨asks, writable, retries, tries⟩ := fails
    have asks : ¬(request = .obtain .readonly ∧ readLock = false) := fun both =>
      Bool.false_ne_true (both.2.symm.trans (asks both.1))
    by_cases noRow : db.rows = []
    · exact not_alwaysReturns_noRow asks writable retries noRow returns
    · obtain ⟨many, waits⟩ := tries noRow
      exact not_alwaysReturns_unbounded asks writable many waits returns
  · intro condition
    have idle (returned : (request.call host readLock).pc = .idle) :
        AlwaysReturns host self readLock request db :=
      @alwaysReturns_of_halts _ _ _ _ _ (fun state => state.proc.pc = .idle) returned
        (fun state event => idle_event event) fun state => halts_of_idle
    obtain free | readOnly | none | ⟨rows, bounded⟩ := condition
    · exact idle (congrArg LockProc.pc (if_pos free))
    · exact returns_readOnly readOnly
    · refine idle ?_
      unfold LockSql.call
      split
      · rfl
      · exact congrArg LockProc.pc (if_neg (not_le.mpr none))
    · refine @alwaysReturns_of_halts _ _ _ _ _ (fun state => state.db.rows ≠ []) rows ?_ ?_
      · intro state event here
        cases event with
        | own => exact rows_step here
        | other action => exact rows_action state.db action here
      · intro state here
        exact halts_of_bounded bounded here

/-- An empty `pkg_lock`, and nobody else. -/
theorem noRow_not_alwaysReturns :
    ¬AlwaysReturns {} 1 true (.obtain .exclusive) { rows := [] } := by
  refine not_alwaysReturns_noRow ?_ rfl (by decide) rfl
  rintro ⟨request, -⟩
  cases request

end Pkgng
