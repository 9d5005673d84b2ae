import Pkgng.Db.Lock

/-!
# Whole calls on the database lock

A process that executes its statements without a step of another one in between.
What a call returns and leaves is worked out here for the four ways it can go: the
row gives the lock, another pid stands in the way, the lock is reset, or the
database cannot be written.
-/

set_option autoImplicit false

namespace Pkgng

section Calls

variable {Pid : Type} [LinearOrder Pid]

/-- Executes statements of the process until its call has returned. -/
def runCall (host : LockHost Pid) : Nat → LockState Pid → Pid → Option (LockState Pid)
  | 0, state, pid => if (state.procs pid).pc = .idle then some state else none
  | fuel + 1, state, pid =>
      if (state.procs pid).pc = .idle then some state
      else runCall host fuel (state.exec host pid) pid

/-- The call the process is in returns, and leaves the final state. -/
def Returns (host : LockHost Pid) (pid : Pid) (state final : LockState Pid) : Prop :=
  ∃ fuel, runCall host fuel state pid = some final

/-! ## Executing a call -/

section Execution

variable {host : LockHost Pid} {state final : LockState Pid} {pid : Pid} {attempt : Attempt}

theorem returns_idle (idle : (state.procs pid).pc = .idle) :
    Returns host pid state final ↔ final = state := by
  constructor
  · rintro ⟨fuel, run⟩
    cases fuel <;> simpa [runCall, idle, eq_comm] using run
  · rintro rfl
    exact ⟨0, by simp [runCall, idle]⟩

theorem returns_exec :
    Returns host pid state final ↔ Returns host pid (state.exec host pid) final := by
  by_cases idle : (state.procs pid).pc = .idle
  · have same : state.exec host pid = state := by
      simp only [LockState.exec, idle]
    rw [same]
  · constructor
    · rintro ⟨fuel, run⟩
      cases fuel with
      | zero => simp [runCall, idle] at run
      | succ fuel => exact ⟨fuel, by simpa [runCall, idle] using run⟩
    · rintro ⟨fuel, run⟩
      exact ⟨fuel + 1, by simpa [runCall, idle] using run⟩

/-- The other processes stay as they are. -/
def LockState.withProc (state : LockState Pid) (pid : Pid) (row : LockRow) (pids : List Pid)
    (proc : LockProc Pid) : LockState Pid :=
  { row := row, pids := pids, procs := Function.update state.procs pid proc }

/-- The process in the middle of a call. -/
def LockState.busy (state : LockState Pid) (pid : Pid) (row : LockRow) (pids : List Pid)
    (pc : LockPc Pid) : LockState Pid :=
  state.withProc pid row pids ((state.procs pid).goto pc)

variable {row : LockRow} {pids : List Pid}

@[simp] theorem withProc_procs_self (proc : LockProc Pid) :
    (state.withProc pid row pids proc).procs pid = proc := by
  simp [LockState.withProc]

theorem withProc_procs_of_ne {other : Pid} (different : other ≠ pid) (proc : LockProc Pid) :
    (state.withProc pid row pids proc).procs other = state.procs other := by
  simp [LockState.withProc, different]

@[simp] theorem withProc_setProc (before after : LockProc Pid) :
    (state.withProc pid row pids before).setProc pid after =
      state.withProc pid row pids after := by
  simp [LockState.withProc, LockState.setProc]

theorem returns_busy {pc : LockPc Pid} :
    Returns host pid (state.busy pid row pids pc) final ↔
      Returns host pid ((state.busy pid row pids pc).exec host pid) final :=
  returns_exec

theorem returns_done {proc : LockProc Pid} (idle : proc.pc = .idle) :
    Returns host pid (state.withProc pid row pids proc) final ↔
      final = state.withProc pid row pids proc :=
  returns_idle (by simpa using idle)

section Statements

variable (host state pid row pids attempt)

theorem exec_refused (writable : host.writable pid = true)
    (refused : attempt.sql.update row = none) :
    (state.busy pid row pids (.execLock attempt)).exec host pid =
      state.busy pid row pids (.selectPids attempt) := by
  simp [LockState.exec, LockState.busy, LockProc.goto, LockState.withProc, LockState.setProc,
    writable, refused]

theorem exec_selectPids :
    (state.busy pid row pids (.selectPids attempt)).exec host pid =
      state.busy pid row pids (.checkPid attempt pids 0) := by
  simp [LockState.exec, LockState.busy, LockProc.goto, LockState.withProc, LockState.setProc]

theorem exec_checkPid_self (rows : List Pid) (found : Nat) :
    (state.busy pid row pids (.checkPid attempt (pid :: rows) found)).exec host pid =
      state.busy pid row pids (.checkPid attempt rows found) := by
  simp [LockState.exec, LockState.busy, LockProc.goto, LockState.withProc, LockState.setProc]

theorem exec_checkPid_live {other : Pid} (different : other ≠ pid)
    (alive : (state.procs other).alive = true) (maySignal : host.maySignal pid other = true)
    (rows : List Pid) (found : Nat) :
    (state.busy pid row pids (.checkPid attempt (other :: rows) found)).exec host pid =
      state.busy pid row pids (.checkPid attempt rows (found + 1)) := by
  simp [LockState.exec, LockState.busy, LockProc.goto, LockState.withProc, LockState.setProc,
    LockState.killFails, different, alive, maySignal]

theorem exec_checkPid_found {found : Nat} (positive : 0 < found) :
    (state.busy pid row pids (.checkPid attempt [] found)).exec host pid =
      state.withProc pid row pids ((state.procs pid).wait host attempt) := by
  have nonzero : found ≠ 0 := by omega
  simp only [LockState.exec, LockState.busy, LockProc.goto, withProc_procs_self, nonzero,
    if_false, withProc_setProc]
  unfold LockProc.wait LockProc.enterLoop
  split <;> [split; skip] <;> rfl

theorem exec_checkPid_none :
    (state.busy pid row pids (.checkPid attempt [] 0)).exec host pid =
      state.busy pid row pids (.resetLock attempt) := by
  simp [LockState.exec, LockState.busy, LockProc.goto, LockState.withProc, LockState.setProc]

theorem exec_resetLock :
    (state.busy pid row pids (.resetLock attempt)).exec host pid =
      state.withProc pid {} pids ((state.procs pid).afterReset host attempt) := by
  simp only [LockState.exec, LockState.busy, LockProc.goto, withProc_procs_self]
  unfold LockProc.afterReset LockProc.enterLoop
  split
  · simp [LockState.withProc, LockState.setProc, LockState.setRow, LockProc.goto]
  · split <;> simp [LockState.withProc, LockState.setProc, LockState.setRow, LockProc.goto,
      LockProc.finish]

theorem exec_removeOwnPid :
    (state.busy pid row pids (.removeOwnPid attempt)).exec host pid =
      state.withProc pid row (pids.filter (· ≠ pid))
        ((state.procs pid).startOver host attempt) := by
  simp only [LockState.exec, LockState.busy, LockProc.goto, withProc_procs_self]
  unfold LockProc.startOver LockProc.enterLoop
  split <;> simp [LockState.withProc, LockState.setProc, LockState.removePid, LockProc.goto,
      LockProc.finish]

theorem exec_updated {next : LockRow} (writable : host.writable pid = true)
    (updated : attempt.sql.update row = some next) :
    (state.busy pid row pids (.execLock attempt)).exec host pid =
      if attempt.sql.isUpgrade then
        state.withProc pid next pids ((state.procs pid).succeed attempt.request)
      else state.busy pid next pids (.writePid attempt) := by
  cases upgrade : attempt.sql.isUpgrade <;>
    simp [LockState.exec, LockState.busy, LockProc.goto, LockState.withProc, LockState.setProc,
      LockState.setRow, LockProc.succeed, writable, updated, upgrade]

theorem exec_writePid :
    (state.busy pid row pids (.writePid attempt)).exec host pid =
      if pid ∈ pids then state.withProc pid row pids ((state.procs pid).finish .fatal)
      else state.withProc pid row (pids.orderedInsert (· ≤ ·) pid)
        ((state.procs pid).succeed attempt.request) := by
  by_cases inserted : pid ∈ pids <;>
    simp [LockState.exec, LockState.busy, LockProc.goto, LockState.withProc, LockState.setProc,
      LockState.insertPid, LockProc.succeed, LockProc.finish, inserted]

theorem exec_readOnly (readOnly : host.writable pid = false)
    (type : attempt.sql.type ≠ .readonly) :
    (state.busy pid row pids (.execLock attempt)).exec host pid =
      state.withProc pid row pids ((state.procs pid).finish .fatal) := by
  simp [LockState.exec, LockState.busy, LockProc.goto, LockState.withProc, LockState.setProc,
    readOnly, type, LockProc.finish]

end Statements

/-! ### Waiting -/

theorem returns_checkPid {rows : List Pid} {found : Nat}
    (live : ∀ other ∈ rows, other ≠ pid →
      (state.procs other).alive = true ∧ host.maySignal pid other = true) :
    Returns host pid (state.busy pid row pids (.checkPid attempt rows found)) final ↔
      Returns host pid
        (state.busy pid row pids
          (.checkPid attempt [] (found + (rows.filter (· ≠ pid)).length))) final := by
  induction rows generalizing found with
  | nil => rfl
  | cons other rows ih =>
      have liveRest := fun third member => live third (List.mem_cons_of_mem other member)
      rw [returns_busy]
      by_cases own : other = pid
      · subst own
        rw [exec_checkPid_self, ih liveRest]
        simp
      · obtain ⟨alive, maySignal⟩ := live other List.mem_cons_self own
        rw [exec_checkPid_live _ _ _ _ _ _ own alive maySignal, ih liveRest]
        simp [own, Nat.add_assoc, Nat.add_comm 1]

theorem returns_refused (writable : host.writable pid = true)
    (refused : attempt.sql.update row = none)
    (live : ∀ other ∈ pids, other ≠ pid →
      (state.procs other).alive = true ∧ host.maySignal pid other = true) :
    Returns host pid (state.busy pid row pids (.execLock attempt)) final ↔
      Returns host pid
        (state.busy pid row pids
          (.checkPid attempt [] (pids.filter (· ≠ pid)).length)) final := by
  rw [returns_busy, exec_refused _ _ _ _ _ _ writable refused, returns_busy,
    exec_selectPids, returns_checkPid live, Nat.zero_add]

/-- A request that the row refuses and somebody else's pid stands against fails and
leaves the tables. -/
theorem returns_waiting (writable : host.writable pid = true)
    (refused : attempt.sql.update row = none)
    (live : ∀ other ∈ pids, other ≠ pid →
      (state.procs other).alive = true ∧ host.maySignal pid other = true)
    (others : ∃ other ∈ pids, other ≠ pid) :
    Returns host pid (state.busy pid row pids (.execLock attempt)) final ↔
      final = state.withProc pid row pids ((state.procs pid).finish .finished) := by
  have positive : 0 < (pids.filter (· ≠ pid)).length := by
    obtain ⟨other, member, different⟩ := others
    apply List.length_pos_of_mem (a := other)
    simpa using ⟨member, different⟩
  -- Each round uses up one of the tries.
  induction left : (host.lockRetries - attempt.tries).toNat generalizing attempt with
  | zero =>
      rw [returns_refused writable refused live, returns_busy,
        exec_checkPid_found _ _ _ _ _ _ positive]
      have last : ¬((attempt.tries + 1 : Nat) : Int) ≤ host.lockRetries := by omega
      have ends : (state.procs pid).wait host attempt = (state.procs pid).finish .finished := by
        unfold LockProc.wait LockProc.enterLoop
        rw [if_neg last]
        split <;> rfl
      rw [ends]
      exact returns_done rfl
  | succ left ih =>
      rw [returns_refused writable refused live, returns_busy,
        exec_checkPid_found _ _ _ _ _ _ positive]
      unfold LockProc.wait LockProc.enterLoop
      split
      · split
        · apply ih
          · exact refused
          · dsimp only
            omega
        · exact returns_done rfl
      · exact returns_done rfl

/-! ### Starting over -/

theorem returns_reset (writable : host.writable pid = true)
    (refused : attempt.sql.update row = none) (nobody : ∀ other ∈ pids, other = pid) :
    Returns host pid (state.busy pid row pids (.execLock attempt)) final ↔
      Returns host pid
        (state.withProc pid {} pids ((state.procs pid).afterReset host attempt)) final := by
  have none : (pids.filter (· ≠ pid)).length = 0 := by
    rw [List.length_eq_zero_iff, List.filter_eq_nil_iff]
    intro other member
    simpa using nobody other member
  rw [returns_refused writable refused fun other member different =>
      absurd (nobody other member) different, none, returns_busy, exec_checkPid_none,
    returns_busy, exec_resetLock]

theorem returns_resetObtain (writable : host.writable pid = true)
    (refused : attempt.sql.update row = none) (nobody : ∀ other ∈ pids, other = pid)
    (tries : (attempt.tries : Int) ≤ host.lockRetries)
    (obtain_ : attempt.sql.isUpgrade = false) :
    Returns host pid (state.busy pid row pids (.execLock attempt)) final ↔
      Returns host pid (state.busy pid {} pids (.execLock attempt)) final := by
  rw [returns_reset writable refused nobody]
  unfold LockProc.afterReset LockProc.enterLoop
  rw [if_neg (by simp [obtain_]), if_pos tries]
  rfl

theorem returns_resetUpgrade (writable : host.writable pid = true)
    (refused : attempt.sql.update row = none) (nobody : ∀ other ∈ pids, other = pid)
    (tries : (attempt.tries : Int) ≤ host.lockRetries)
    (upgrade : attempt.sql.isUpgrade = true) :
    Returns host pid (state.busy pid row pids (.execLock attempt)) final ↔
      Returns host pid
        (state.busy pid {} (pids.filter (· ≠ pid))
          (.execLock { attempt with startedOver := true, tries := 0 })) final := by
  have retries : ((0 : Nat) : Int) ≤ host.lockRetries := by omega
  rw [returns_reset writable refused nobody]
  unfold LockProc.afterReset
  rw [if_pos upgrade]
  rw [show state.withProc pid {} pids ((state.procs pid).goto (.removeOwnPid attempt)) =
    state.busy pid {} pids (.removeOwnPid attempt) from rfl, returns_busy,
    exec_removeOwnPid]
  unfold LockProc.startOver LockProc.enterLoop
  rw [if_pos retries]
  rfl

/-- Obtaining a lock that the row gives: the pid is inserted unless it stands there
already, which is an error. -/
theorem returns_obtained {next : LockRow} (writable : host.writable pid = true)
    (updated : attempt.sql.update row = some next) (obtain_ : attempt.sql.isUpgrade = false) :
    Returns host pid (state.busy pid row pids (.execLock attempt)) final ↔
      final = if pid ∈ pids then state.withProc pid next pids ((state.procs pid).finish .fatal)
        else state.withProc pid next (pids.orderedInsert (· ≤ ·) pid)
          ((state.procs pid).succeed attempt.request) := by
  rw [returns_busy, exec_updated _ _ _ _ _ _ writable updated, if_neg (by simp [obtain_]),
    returns_busy, exec_writePid]
  split
  · exact returns_done rfl
  · exact returns_done rfl

theorem returns_upgraded {next : LockRow} (writable : host.writable pid = true)
    (updated : attempt.sql.update row = some next) (upgrade : attempt.sql.isUpgrade = true) :
    Returns host pid (state.busy pid row pids (.execLock attempt)) final ↔
      final = state.withProc pid next pids ((state.procs pid).succeed attempt.request) := by
  rw [returns_busy, exec_updated _ _ _ _ _ _ writable updated, if_pos upgrade]
  exact returns_done rfl

theorem returns_release {type : LockType} {next : LockRow}
    (writable : host.writable pid = true) (updated : type.unlock row = some next) :
    Returns host pid (state.busy pid row pids (.execUnlock type)) final ↔
      final = state.withProc pid next (pids.filter (· ≠ pid))
        (((state.procs pid).unlocked type).finish .ok) := by
  have unlocked : (state.busy pid row pids (.execUnlock type)).exec host pid =
      state.withProc pid next pids ((state.procs pid).unlocked type) := by
    simp [LockState.exec, LockState.busy, LockProc.goto, LockState.withProc, LockState.setProc,
      LockState.setRow, LockProc.unlocked, writable, updated]
  have removed : (state.withProc pid next pids ((state.procs pid).unlocked type)).exec host pid =
      state.withProc pid next (pids.filter (· ≠ pid))
        (((state.procs pid).unlocked type).finish .ok) := by
    simp [LockState.exec, LockState.withProc, LockState.setProc, LockState.removePid,
      LockProc.unlocked, LockProc.finish]
  rw [returns_busy, unlocked, returns_exec, removed]
  exact returns_done rfl

theorem returns_release_readOnly {type : LockType} (readOnly : host.writable pid = false) :
    Returns host pid (state.busy pid row pids (.execUnlock type)) final ↔
      final = state.withProc pid row pids ((state.procs pid).finish .fatal) := by
  have failed : (state.busy pid row pids (.execUnlock type)).exec host pid =
      state.withProc pid row pids ((state.procs pid).finish .fatal) := by
    simp [LockState.exec, LockState.busy, LockProc.goto, LockState.withProc, LockState.setProc,
      LockProc.finish, readOnly]
  rw [returns_busy, failed]
  exact returns_done rfl

end Execution

end Calls

end Pkgng
