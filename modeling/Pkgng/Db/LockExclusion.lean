import Mathlib.Algebra.BigOperators.Group.Finset.Piecewise
import Mathlib.Algebra.Order.BigOperators.Group.Finset
import Pkgng.Db.Lock

/-!
# Mutual exclusion of the database lock

A process claims a lock from the statement that puts it into the row on, also
while its pid is not inserted yet.  A run keeps the locks exclusive as long as
`pkgdb_reset_lock` runs only when no live process claims a lock, nobody gives
away or upgrades a lock of someone else, and a process that gets the read lock
can write the database.
-/

set_option autoImplicit false

namespace Pkgng

namespace LockProc

variable {Pid : Type}

/-- The locks the process is past a successful call for, or has in the row while
its pid is about to be inserted. -/
def claims (proc : LockProc Pid) (type : LockType) : Nat :=
  match proc.pc with
  | .writePid attempt => max (proc.held type) (attempt.request.grant proc.held type)
  | _ => proc.held type

def liveClaims (proc : LockProc Pid) (type : LockType) : Nat :=
  if proc.alive then proc.claims type else 0

end LockProc

namespace LockProc

variable {Pid : Type} {host : LockHost Pid} {proc : LockProc Pid} {attempt : Attempt}

theorem held_le_claims (proc : LockProc Pid) (type : LockType) :
    proc.held type ≤ proc.claims type := by
  unfold claims
  split
  · exact Nat.le_max_left _ _
  · exact Nat.le_refl _

theorem claims_eq_held (outside : ∀ attempt, proc.pc ≠ .writePid attempt) (type : LockType) :
    proc.claims type = proc.held type := by
  unfold claims
  split
  · next attempt writing => exact absurd writing (outside attempt)
  · rfl

theorem liveClaims_of_alive (alive : proc.alive = true) (type : LockType) :
    proc.liveClaims type = proc.claims type := by
  rw [liveClaims, if_pos alive]

theorem succeed_liveClaims (alive : proc.alive = true) (request : LockSql) (type : LockType) :
    (proc.succeed request).liveClaims type = request.grant proc.held type :=
  liveClaims_of_alive (show (proc.succeed request).alive = true from alive) type

theorem writing_liveClaims (alive : proc.alive = true) (attempt : Attempt) (type : LockType) :
    (proc.goto (.writePid attempt)).liveClaims type =
      max (proc.held type) (attempt.request.grant proc.held type) :=
  liveClaims_of_alive (show (proc.goto (.writePid attempt)).alive = true from alive) type

theorem unlocked_liveClaims (alive : proc.alive = true) (type other : LockType) :
    (proc.unlocked type).liveClaims other =
      Function.update proc.held type (proc.held type - 1) other :=
  liveClaims_of_alive (show (proc.unlocked type).alive = true from alive) other

/-- `proc` goes on with the locks of `old`, and not to the insertion of its pid. -/
structure GoesOn (old proc : LockProc Pid) : Prop where
  alive : proc.alive = old.alive
  held : proc.held = old.held
  outside : ∀ attempt, proc.pc ≠ .writePid attempt

theorem GoesOn.liveClaims_le {old proc : LockProc Pid} (goes : GoesOn old proc)
    (type : LockType) : proc.liveClaims type ≤ old.liveClaims type := by
  unfold liveClaims
  rw [goes.alive]
  split
  · rw [claims_eq_held goes.outside, goes.held]
    exact held_le_claims old type
  · exact Nat.le_refl _

theorem finish_goesOn (proc : LockProc Pid) (ret : Epkg) : GoesOn proc (proc.finish ret) :=
  ⟨rfl, rfl, nofun⟩

theorem goto_goesOn {pc : LockPc Pid} (outside : ∀ attempt, pc ≠ .writePid attempt) :
    GoesOn proc (proc.goto pc) := ⟨rfl, rfl, outside⟩

theorem enterLoop_goesOn : GoesOn proc (proc.enterLoop host attempt) := by
  unfold enterLoop
  split
  · exact goto_goesOn nofun
  · exact finish_goesOn proc .finished

theorem wait_goesOn : GoesOn proc (proc.wait host attempt) := by
  unfold wait
  split
  · exact enterLoop_goesOn
  · exact finish_goesOn proc .finished

theorem afterReset_goesOn : GoesOn proc (proc.afterReset host attempt) := by
  unfold afterReset
  split
  · exact goto_goesOn nofun
  · exact enterLoop_goesOn

theorem startOver_goesOn : GoesOn proc (proc.startOver host attempt) := enterLoop_goesOn

theorem begin_goesOn (call : LockCall) : GoesOn proc (proc.begin host call) := by
  unfold begin
  split
  · exact enterLoop_goesOn
  · exact enterLoop_goesOn
  · exact finish_goesOn proc .fatal
  · exact enterLoop_goesOn
  · exact finish_goesOn proc .fatal
  · exact goto_goesOn nofun

end LockProc

/-- Obtaining a lock of the type of the request gains at most that lock. -/
theorem LockSql.grant_le (request : LockSql) (held : LockType → Nat) (other : LockType) :
    request.grant held other ≤ held other + if other = request.type then 1 else 0 := by
  cases request with
  | obtain type =>
      by_cases same : other = type
      · subst same
        simp [grant, LockSql.type]
      · simp [grant, same]
  | upgrade =>
      by_cases same : other = .exclusive
      · subst same
        simp [grant, LockSql.type]
      · simp [grant, same]
  | downgrade =>
      cases other <;> simp [grant, LockSql.type]

namespace Attempt

variable (attempt : Attempt)

theorem request_type {type : LockType} (sql : attempt.sql = .obtain type) :
    attempt.request.type = type := by
  unfold Attempt.sql at sql
  split at sql
  · exact LockSql.obtain.inj sql
  · rw [sql]
    rfl

theorem request_upgrade (sql : attempt.sql = .upgrade) : attempt.request = .upgrade := by
  unfold Attempt.sql at sql
  split at sql
  · cases sql
  · exact sql

theorem request_downgrade (sql : attempt.sql = .downgrade) : attempt.request = .downgrade := by
  unfold Attempt.sql at sql
  split at sql
  · cases sql
  · exact sql

end Attempt

section Exclusion

variable {Pid : Type}

/-- No other live process claims a lock. -/
def Alone (state : LockState Pid) (pid : Pid) : Prop :=
  ∀ other, other ≠ pid → ∀ type, (state.procs other).liveClaims type = 0

/-- The lock an upgrade or a downgrade starts from. -/
def LockSql.startsFrom : LockSql → Option LockType
  | .obtain _ => none
  | .upgrade => some .advisory
  | .downgrade => some .exclusive

/-- The condition on the next statement of a process. -/
def CarefulExec (host : LockHost Pid) (state : LockState Pid) (pid : Pid) : Prop :=
  match (state.procs pid).pc with
  | .execLock attempt =>
      (attempt.sql.type = .readonly → host.writable pid = true) ∧
        ∀ type, attempt.sql.startsFrom = some type →
          attempt.sql.update state.row = none ∨ 0 < (state.procs pid).held type ∨ Alone state pid
  | .resetLock _ => ∀ other type, (state.procs other).liveClaims type = 0
  | .execUnlock type =>
      type.unlock state.row = none ∨ 0 < (state.procs pid).held type ∨ Alone state pid
  | _ => True

def CarefulStep (host : LockHost Pid) (state : LockState Pid) : LockEvent Pid → Prop
  | .exec pid => CarefulExec host state pid
  | _ => True

/-- While a live process is past a successful call for the exclusive lock, no other
live process is past one for any lock. -/
def MutuallyExclusive (state : LockState Pid) : Prop :=
  ∀ holder other, (state.procs holder).alive = true → (state.procs other).alive = true →
    holder ≠ other → 0 < (state.procs holder).held .exclusive →
    ∀ type, (state.procs other).held type = 0

section Totals

variable [Fintype Pid]

def totalClaims (state : LockState Pid) (type : LockType) : Nat :=
  ∑ pid, (state.procs pid).liveClaims type

structure LockInv (state : LockState Pid) : Prop where
  covered : ∀ type, totalClaims state type ≤ state.row.column type
  exclusive_le : state.row.exclusive ≤ 1
  advisory_le : state.row.advisory ≤ 1
  alone : ∀ holder, 0 < (state.procs holder).liveClaims .exclusive → Alone state holder

theorem totalClaims_setProc [DecidableEq Pid] {state next : LockState Pid} {pid : Pid}
    {proc : LockProc Pid} (procs : next.procs = Function.update state.procs pid proc)
    (type : LockType) :
    totalClaims next type + (state.procs pid).liveClaims type =
      totalClaims state type + proc.liveClaims type := by
  rw [totalClaims, procs]
  exact Lib.sum_step (fun proc => proc.liveClaims type) state.procs pid proc

theorem liveClaims_le_totalClaims (state : LockState Pid) (pid : Pid) (type : LockType) :
    (state.procs pid).liveClaims type ≤ totalClaims state type :=
  Finset.single_le_sum (f := fun other => (state.procs other).liveClaims type)
    (fun _ _ => Nat.zero_le _) (Finset.mem_univ pid)

/-- A column that is zero covers no claim. -/
theorem LockInv.liveClaims_eq_zero {state : LockState Pid} (inv : LockInv state)
    (type : LockType) (column : state.row.column type = 0) (pid : Pid) :
    (state.procs pid).liveClaims type = 0 := by
  have single := liveClaims_le_totalClaims state pid type
  have covered := inv.covered type
  omega

/-- Two processes do not claim the same advisory or exclusive lock. -/
theorem LockInv.liveClaims_unique {state : LockState Pid} (inv : LockInv state)
    (type : LockType) (column : state.row.column type ≤ 1) {pid other : Pid}
    (different : other ≠ pid) (claimed : 0 < (state.procs pid).liveClaims type) :
    (state.procs other).liveClaims type = 0 := by
  have pair := Finset.add_le_sum (f := fun other => (state.procs other).liveClaims type)
    (fun _ _ => Nat.zero_le _) (Finset.mem_univ pid) (Finset.mem_univ other) different.symm
  have covered := inv.covered type
  rw [totalClaims] at covered
  omega

theorem LockInv.initial : LockInv ({} : LockState Pid) := by
  have unclaimed : ∀ pid type, (({} : LockState Pid).procs pid).liveClaims type = 0 :=
    fun _ _ => rfl
  refine ⟨fun type => ?_, Nat.zero_le 1, Nat.zero_le 1, fun holder claimed => ?_⟩
  · rw [totalClaims, Finset.sum_eq_zero fun pid _ => unclaimed pid type]
    exact Nat.zero_le _
  · rw [unclaimed] at claimed
    omega

theorem LockInv.mutuallyExclusive {state : LockState Pid} (inv : LockInv state) :
    MutuallyExclusive state := by
  intro holder other holderAlive otherAlive different held type
  have claimed : 0 < (state.procs holder).liveClaims .exclusive := by
    rw [LockProc.liveClaims_of_alive holderAlive]
    exact Nat.lt_of_lt_of_le held (LockProc.held_le_claims _ _)
  have none := inv.alone holder claimed other different.symm type
  rw [LockProc.liveClaims_of_alive otherAlive] at none
  have bound := LockProc.held_le_claims (state.procs other) type
  omega

end Totals

/-! ## What a step does to the row and to the claims -/

/-- What a careful step of the process does to the row and to its own claims. -/
inductive LockEffect (state : LockState Pid) (pid : Pid) (row : LockRow) (proc : LockProc Pid) :
    Prop
  | quiet (same : row = state.row)
      (fewer : ∀ type, proc.liveClaims type ≤ (state.procs pid).liveClaims type)
  | obtains (type : LockType) (updated : (LockSql.obtain type).update state.row = some row)
      (gained : ∀ other, proc.liveClaims other ≤
        (state.procs pid).liveClaims other + if other = type then 1 else 0)
  | upgrades (updated : LockSql.upgrade.update state.row = some row)
      (gained : ∀ other, proc.liveClaims other ≤
        (state.procs pid).liveClaims other + if other = .exclusive then 1 else 0)
      (entitled : 0 < (state.procs pid).liveClaims .advisory ∨ Alone state pid)
  | downgrades (updated : LockSql.downgrade.update state.row = some row)
      (exclusive : proc.liveClaims .exclusive = 0)
      (advisory : proc.liveClaims .advisory ≤ max ((state.procs pid).liveClaims .advisory) 1)
      (read : proc.liveClaims .readonly ≤ (state.procs pid).liveClaims .readonly)
      (entitled : 0 < (state.procs pid).liveClaims .exclusive ∨ Alone state pid)
  | unlocks (type : LockType) (updated : type.unlock state.row = some row)
      (lost : ∀ other, proc.liveClaims other ≤
        (state.procs pid).liveClaims other - if other = type then 1 else 0)
      (entitled : 0 < (state.procs pid).liveClaims type ∨ Alone state pid)
  | resets (row_eq : row = {})
      (fewer : ∀ type, proc.liveClaims type ≤ (state.procs pid).liveClaims type)
      (unclaimed : ∀ other type, (state.procs other).liveClaims type = 0)

/-- A process that goes on within the loop leaves the row and its claims. -/
theorem LockEffect.of_goesOn {state : LockState Pid} {pid : Pid} {row : LockRow}
    {proc : LockProc Pid} (goes : (state.procs pid).GoesOn proc) (same : row = state.row) :
    LockEffect state pid row proc :=
  .quiet same goes.liveClaims_le

section Step

variable [LinearOrder Pid] {host : LockHost Pid} {state next : LockState Pid} {pid : Pid}

/-- The process that a step is about and what it does to the tables. -/
def StepEffect (state : LockState Pid) (pid : Pid) (next : LockState Pid) : Prop :=
  ∃ proc, next.procs = Function.update state.procs pid proc ∧
    LockEffect state pid next.row proc

theorem setProc_effect {base : LockState Pid} {proc : LockProc Pid}
    (goes : (state.procs pid).GoesOn proc) (procs : base.procs = state.procs)
    (row : base.row = state.row) : StepEffect state pid (base.setProc pid proc) :=
  ⟨proc, by rw [← procs]; rfl, .of_goesOn goes row⟩

theorem execLock_effect {attempt : Attempt} (pc : (state.procs pid).pc = .execLock attempt)
    (alive : (state.procs pid).alive = true) (careful : CarefulExec host state pid) :
    StepEffect state pid (state.exec host pid) := by
  have claims : ∀ type, (state.procs pid).liveClaims type = (state.procs pid).held type := by
    intro type
    rw [LockProc.liveClaims_of_alive alive]
    exact LockProc.claims_eq_held (by simp [pc]) type
  simp only [CarefulExec, pc] at careful
  obtain ⟨writes, entitled⟩ := careful
  simp only [LockState.exec, pc]
  by_cases writable : host.writable pid = true
  · simp only [writable, Bool.not_true, Bool.false_eq_true, if_false]
    cases updated : attempt.sql.update state.row with
    | none =>
        dsimp only
        apply setProc_effect _ rfl rfl
        apply LockProc.goto_goesOn
        nofun
    | some row =>
        dsimp only
        cases sql : attempt.sql with
        | obtain type =>
            rw [sql] at updated
            rw [if_neg (show ¬(LockSql.obtain type).isUpgrade = true from Bool.false_ne_true)]
            refine ⟨_, rfl, .obtains type updated fun other => ?_⟩
            have gained := LockSql.grant_le attempt.request (state.procs pid).held other
            rw [attempt.request_type sql] at gained
            rw [LockProc.writing_liveClaims alive, claims]
            omega
        | upgrade =>
            have held : 0 < (state.procs pid).liveClaims .advisory ∨ Alone state pid := by
              rw [claims]
              exact (entitled .advisory (by rw [sql]; rfl)).resolve_left (by simp [updated])
            rw [sql] at updated
            rw [if_pos (show LockSql.upgrade.isUpgrade = true from rfl)]
            refine ⟨_, rfl, .upgrades updated (fun other => ?_) held⟩
            have gained := LockSql.grant_le attempt.request (state.procs pid).held other
            rw [LockProc.succeed_liveClaims alive, claims]
            rw [attempt.request_upgrade sql] at gained ⊢
            exact gained
        | downgrade =>
            have held : 0 < (state.procs pid).liveClaims .exclusive ∨ Alone state pid := by
              rw [claims]
              exact (entitled .exclusive (by rw [sql]; rfl)).resolve_left (by simp [updated])
            rw [sql] at updated
            rw [if_pos (show LockSql.downgrade.isUpgrade = true from rfl)]
            refine ⟨_, rfl, .downgrades updated ?_ ?_ ?_ held⟩
            · rw [LockProc.succeed_liveClaims alive, attempt.request_downgrade sql]
              simp [LockSql.grant]
            · rw [LockProc.succeed_liveClaims alive, attempt.request_downgrade sql, claims]
              simp [LockSql.grant]
            · rw [LockProc.succeed_liveClaims alive, attempt.request_downgrade sql, claims]
              simp [LockSql.grant]
  · simp only [writable, Bool.not_false, if_true]
    have other : attempt.sql.type ≠ .readonly := by
      intro readonly
      exact writable (writes readonly)
    rw [if_neg other]
    exact setProc_effect (LockProc.finish_goesOn _ _) rfl rfl

theorem execUnlock_effect {type : LockType} (pc : (state.procs pid).pc = .execUnlock type)
    (alive : (state.procs pid).alive = true) (careful : CarefulExec host state pid) :
    StepEffect state pid (state.exec host pid) := by
  have claims : ∀ type, (state.procs pid).liveClaims type = (state.procs pid).held type := by
    intro type
    rw [LockProc.liveClaims_of_alive alive]
    exact LockProc.claims_eq_held (by simp [pc]) type
  simp only [CarefulExec, pc] at careful
  simp only [LockState.exec, pc]
  by_cases writable : host.writable pid = true
  · simp only [writable, Bool.not_true, Bool.false_eq_true, if_false]
    cases updated : type.unlock state.row with
    | none => exact setProc_effect (LockProc.finish_goesOn _ _) rfl rfl
    | some row =>
        have held := careful.resolve_left (by simp [updated])
        rw [← claims] at held
        refine ⟨_, rfl, .unlocks type updated (fun other => ?_) held⟩
        rw [LockProc.unlocked_liveClaims alive, claims]
        by_cases same : other = type
        · subst same
          simp
        · simp [same]
  · simp only [writable, Bool.not_false, if_true]
    exact setProc_effect (LockProc.finish_goesOn _ _) rfl rfl

/-- Inserting the pid turns the claim into a lock that is held, or drops it. -/
theorem writePid_effect {attempt : Attempt} (pc : (state.procs pid).pc = .writePid attempt)
    (alive : (state.procs pid).alive = true) :
    StepEffect state pid (state.exec host pid) := by
  simp only [LockState.exec, pc]
  split
  · exact setProc_effect (LockProc.finish_goesOn _ _) rfl rfl
  · refine ⟨_, rfl, .quiet rfl fun type => ?_⟩
    rw [LockProc.succeed_liveClaims alive, LockProc.liveClaims_of_alive alive, LockProc.claims, pc]
    exact Nat.le_max_right _ _

theorem exec_effect (alive : (state.procs pid).alive = true)
    (careful : CarefulExec host state pid) : StepEffect state pid (state.exec host pid) := by
  cases pc : (state.procs pid).pc with
  | idle =>
      simp only [LockState.exec, pc]
      exact ⟨state.procs pid, (Function.update_eq_self pid _).symm,
        .quiet rfl fun _ => Nat.le_refl _⟩
  | execLock attempt => exact execLock_effect pc alive careful
  | selectPids attempt =>
      simp only [LockState.exec, pc]
      apply setProc_effect _ rfl rfl
      apply LockProc.goto_goesOn
      nofun
  | checkPid attempt rows found =>
      cases rows with
      | nil =>
          simp only [LockState.exec, pc]
          split
          · apply setProc_effect _ rfl rfl
            apply LockProc.goto_goesOn
            nofun
          · exact setProc_effect LockProc.wait_goesOn rfl rfl
      | cons row rows =>
          simp only [LockState.exec, pc]
          split
          · apply setProc_effect _ rfl rfl
            apply LockProc.goto_goesOn
            nofun
          · split
            · apply setProc_effect _ rfl rfl
              apply LockProc.goto_goesOn
              nofun
            · apply setProc_effect _ rfl rfl
              apply LockProc.goto_goesOn
              nofun
  | removePid attempt other rows found =>
      simp only [LockState.exec, pc]
      refine setProc_effect ?_ rfl rfl
      apply LockProc.goto_goesOn
      nofun
  | resetLock attempt =>
      simp only [CarefulExec, pc] at careful
      simp only [LockState.exec, pc]
      exact ⟨_, rfl, .resets rfl LockProc.afterReset_goesOn.liveClaims_le careful⟩
  | removeOwnPid attempt =>
      simp only [LockState.exec, pc]
      exact setProc_effect LockProc.startOver_goesOn rfl rfl
  | writePid attempt => exact writePid_effect pc alive
  | execUnlock type => exact execUnlock_effect pc alive careful
  | removeUnlocked =>
      simp only [LockState.exec, pc]
      exact setProc_effect (LockProc.finish_goesOn _ _) rfl rfl

theorem sqlError_effect : StepEffect state pid (state.sqlError host pid) := by
  have unchanged : StepEffect state pid state :=
    ⟨state.procs pid, (Function.update_eq_self pid _).symm, .quiet rfl fun _ => Nat.le_refl _⟩
  unfold LockState.sqlError
  dsimp only
  cases (state.procs pid).pc with
  | idle => exact unchanged
  | execLock attempt => exact setProc_effect (LockProc.finish_goesOn _ _) rfl rfl
  | selectPids attempt => exact setProc_effect LockProc.wait_goesOn rfl rfl
  | checkPid attempt rows found => exact unchanged
  | removePid attempt other rows found => exact setProc_effect LockProc.wait_goesOn rfl rfl
  | resetLock attempt => exact setProc_effect LockProc.afterReset_goesOn rfl rfl
  | removeOwnPid attempt => exact setProc_effect LockProc.startOver_goesOn rfl rfl
  | writePid attempt => exact setProc_effect (LockProc.finish_goesOn _ _) rfl rfl
  | execUnlock type => exact setProc_effect (LockProc.finish_goesOn _ _) rfl rfl
  | removeUnlocked => exact setProc_effect (LockProc.finish_goesOn _ _) rfl rfl

theorem lockStep_effect {event : LockEvent Pid} (step : lockStep host state event = some next)
    (careful : CarefulStep host state event) : ∃ pid, StepEffect state pid next := by
  cases event with
  | call pid call =>
      simp only [lockStep, Option.ite_none_right_eq_some] at step
      cases Option.some.inj step.2
      exact ⟨pid, setProc_effect (LockProc.begin_goesOn call) rfl rfl⟩
  | exec pid =>
      simp only [lockStep, Option.ite_none_right_eq_some] at step
      cases Option.some.inj step.2
      exact ⟨pid, exec_effect step.1 careful⟩
  | sqlError pid =>
      simp only [lockStep, Option.ite_none_right_eq_some] at step
      cases Option.some.inj step.2
      exact ⟨pid, sqlError_effect⟩
  | die pid =>
      cases Option.some.inj step
      exact ⟨pid, _, rfl, .quiet rfl fun _ => Nat.zero_le _⟩

end Step

/-! ## The invariant -/

section Invariant

variable [DecidableEq Pid] {state next : LockState Pid} {pid : Pid} {proc : LockProc Pid}

theorem Alone.of_update (procs : next.procs = Function.update state.procs pid proc)
    (own : 0 < proc.liveClaims .exclusive → Alone state pid)
    (others : ∀ holder, holder ≠ pid → 0 < (state.procs holder).liveClaims .exclusive →
      Alone state holder ∧ ∀ type, proc.liveClaims type = 0) :
    ∀ holder, 0 < (next.procs holder).liveClaims .exclusive → Alone next holder := by
  intro holder claimed other different type
  rw [procs] at claimed ⊢
  by_cases ownHolder : holder = pid
  · subst ownHolder
    rw [Function.update_self] at claimed
    rw [Function.update_of_ne different]
    exact own claimed other different type
  · rw [Function.update_of_ne ownHolder] at claimed
    obtain ⟨alone, dropped⟩ := others holder ownHolder claimed
    by_cases ownOther : other = pid
    · subst ownOther
      rw [Function.update_self]
      exact dropped type
    · rw [Function.update_of_ne ownOther]
      exact alone other different type

variable [Fintype Pid]

/-- Claims that only shrink stay alone. -/
theorem LockInv.alone_of_fewer (inv : LockInv state)
    (procs : next.procs = Function.update state.procs pid proc)
    (fewer : ∀ type, proc.liveClaims type ≤ (state.procs pid).liveClaims type) :
    ∀ holder, 0 < (next.procs holder).liveClaims .exclusive → Alone next holder := by
  apply Alone.of_update procs
  · intro claimed
    exact inv.alone pid (Nat.lt_of_lt_of_le claimed (fewer .exclusive))
  · intro holder different claimed
    have alone := inv.alone holder claimed
    refine ⟨alone, fun type => ?_⟩
    have none := alone pid different.symm type
    have bound := fewer type
    omega

/-- An update that adds one to a column covers one more claim of its lock. -/
theorem LockInv.covered_of_gained (inv : LockInv state)
    (procs : next.procs = Function.update state.procs pid proc) (type : LockType)
    (column : ∀ other, next.row.column other =
      state.row.column other + if other = type then 1 else 0)
    (gained : ∀ other, proc.liveClaims other ≤
      (state.procs pid).liveClaims other + if other = type then 1 else 0) (other : LockType) :
    totalClaims next other ≤ next.row.column other := by
  have total := totalClaims_setProc procs other
  have covered := inv.covered other
  have bound := gained other
  rw [column other]
  omega

theorem LockInv.preserved_obtains (inv : LockInv state)
    (procs : next.procs = Function.update state.procs pid proc) {type : LockType}
    (updated : (LockSql.obtain type).update state.row = some next.row)
    (gained : ∀ other, proc.liveClaims other ≤
      (state.procs pid).liveClaims other + if other = type then 1 else 0) : LockInv next := by
  have unclaimed := inv.liveClaims_eq_zero .exclusive (LockSql.obtain_free updated)
  have covered := inv.covered_of_gained procs type (LockSql.obtain_column updated) gained
  have exclusive_le := inv.exclusive_le
  have advisory_le := inv.advisory_le
  cases type with
  | readonly =>
      simp only [LockSql.update, Option.ite_none_right_eq_some] at updated
      obtain ⟨free, row⟩ := updated
      refine ⟨covered, ?_, ?_, ?_⟩
      · rw [← Option.some.inj row]
        exact exclusive_le
      · rw [← Option.some.inj row]
        exact advisory_le
      · apply Alone.of_update procs
        · intro claimed
          have bound := gained .exclusive
          rw [unclaimed pid] at bound
          simp at bound
          omega
        · intro holder _ claimed
          rw [unclaimed holder] at claimed
          omega
  | advisory =>
      simp only [LockSql.update, Option.ite_none_right_eq_some] at updated
      obtain ⟨free, row⟩ := updated
      refine ⟨covered, ?_, ?_, ?_⟩
      · rw [← Option.some.inj row]
        exact exclusive_le
      · rw [← Option.some.inj row]
      · apply Alone.of_update procs
        · intro claimed
          have bound := gained .exclusive
          rw [unclaimed pid] at bound
          simp at bound
          omega
        · intro holder _ claimed
          rw [unclaimed holder] at claimed
          omega
  | exclusive =>
      simp only [LockSql.update, Option.ite_none_right_eq_some] at updated
      obtain ⟨free, row⟩ := updated
      refine ⟨covered, ?_, ?_, ?_⟩
      · rw [← Option.some.inj row]
      · rw [← Option.some.inj row]
        exact advisory_le
      · apply Alone.of_update procs
        · intro _ other _ type
          cases type with
          | readonly => exact inv.liveClaims_eq_zero .readonly free.2.2 other
          | advisory => exact inv.liveClaims_eq_zero .advisory free.2.1 other
          | exclusive => exact unclaimed other
        · intro holder _ claimed
          rw [unclaimed holder] at claimed
          omega

theorem LockInv.preserved_upgrades (inv : LockInv state)
    (procs : next.procs = Function.update state.procs pid proc)
    (updated : LockSql.upgrade.update state.row = some next.row)
    (gained : ∀ other, proc.liveClaims other ≤
      (state.procs pid).liveClaims other + if other = .exclusive then 1 else 0)
    (entitled : 0 < (state.procs pid).liveClaims .advisory ∨ Alone state pid) :
    LockInv next := by
  simp only [LockSql.update, Option.ite_none_right_eq_some] at updated
  obtain ⟨⟨exclusive, advisory, read⟩, row⟩ := updated
  have unclaimed := inv.liveClaims_eq_zero .exclusive exclusive
  have unread := inv.liveClaims_eq_zero .readonly read
  have alone : Alone state pid := by
    rcases entitled with held | alone
    · intro other different type
      cases type with
      | readonly => exact unread other
      | advisory =>
          exact inv.liveClaims_unique .advisory inv.advisory_le different held
      | exclusive => exact unclaimed other
    · exact alone
  refine ⟨inv.covered_of_gained procs .exclusive (fun other => ?_) gained, ?_, ?_, ?_⟩
  · rw [← Option.some.inj row]
    cases other <;> simp [LockRow.column, exclusive, advisory]
  · rw [← Option.some.inj row]
  · rw [← Option.some.inj row]
  · apply Alone.of_update procs
    · intro _
      exact alone
    · intro holder _ claimed
      rw [unclaimed holder] at claimed
      omega

theorem LockInv.preserved_downgrades (inv : LockInv state)
    (procs : next.procs = Function.update state.procs pid proc)
    (updated : LockSql.downgrade.update state.row = some next.row)
    (exclusive : proc.liveClaims .exclusive = 0)
    (advisory : proc.liveClaims .advisory ≤ max ((state.procs pid).liveClaims .advisory) 1)
    (read : proc.liveClaims .readonly ≤ (state.procs pid).liveClaims .readonly)
    (entitled : 0 < (state.procs pid).liveClaims .exclusive ∨ Alone state pid) :
    LockInv next := by
  simp only [LockSql.update, Option.ite_none_right_eq_some] at updated
  obtain ⟨guard, row⟩ := updated
  have alone : Alone state pid := by
    rcases entitled with held | alone
    · exact inv.alone pid held
    · exact alone
  have own : ∀ type, totalClaims next type = proc.liveClaims type := by
    intro type
    rw [totalClaims, Finset.sum_eq_single pid, procs, Function.update_self]
    · intro other _ different
      rw [procs, Function.update_of_ne different]
      exact alone other different type
    · intro missing
      exact absurd (Finset.mem_univ pid) missing
  have advisoryBefore := Nat.le_trans (liveClaims_le_totalClaims state pid .advisory)
    (inv.covered .advisory)
  have readBefore := Nat.le_trans (liveClaims_le_totalClaims state pid .readonly)
    (inv.covered .readonly)
  simp only [LockRow.column, guard] at advisoryBefore readBefore
  refine ⟨fun type => ?_, ?_, ?_, ?_⟩
  · rw [own, ← Option.some.inj row]
    cases type <;> simp only [LockRow.column] <;> omega
  · rw [← Option.some.inj row]
    exact Nat.zero_le 1
  · rw [← Option.some.inj row]
  · apply Alone.of_update procs
    · intro _
      exact alone
    · intro holder different claimed
      rw [alone holder different] at claimed
      omega

theorem LockInv.preserved_unlocks (inv : LockInv state)
    (procs : next.procs = Function.update state.procs pid proc) {type : LockType}
    (updated : type.unlock state.row = some next.row)
    (lost : ∀ other, proc.liveClaims other ≤
      (state.procs pid).liveClaims other - if other = type then 1 else 0)
    (entitled : 0 < (state.procs pid).liveClaims type ∨ Alone state pid) : LockInv next := by
  have column := LockType.unlock_column updated
  have fewer : ∀ other, proc.liveClaims other ≤ (state.procs pid).liveClaims other :=
    fun other => Nat.le_trans (lost other) (Nat.sub_le _ _)
  refine ⟨fun other => ?_, ?_, ?_, inv.alone_of_fewer procs fewer⟩
  · have total := totalClaims_setProc procs other
    have covered := inv.covered other
    have bound := lost other
    rw [column other]
    by_cases same : other = type
    · subst same
      simp only [if_true] at bound ⊢
      rcases entitled with held | alone
      · omega
      · have single := Finset.sum_eq_single_of_mem
          (f := fun other' => (state.procs other').liveClaims other) pid (Finset.mem_univ pid)
          (fun other' _ different => alone other' different other)
        rw [← totalClaims] at single
        omega
    · simp only [same, if_false] at bound ⊢
      omega
  · have exclusive := column .exclusive
    have before := inv.exclusive_le
    simp only [LockRow.column] at exclusive
    omega
  · have advisory := column .advisory
    have before := inv.advisory_le
    simp only [LockRow.column] at advisory
    omega

theorem LockInv.preserved {Pid : Type} [LinearOrder Pid] [Fintype Pid]
    {state next : LockState Pid} {pid : Pid} (inv : LockInv state) (effect : StepEffect state pid next) :
    LockInv next := by
  obtain ⟨proc, procs, effect⟩ := effect
  cases effect with
  | quiet same fewer =>
      refine ⟨fun type => ?_, ?_, ?_, inv.alone_of_fewer procs fewer⟩
      · have total := totalClaims_setProc procs type
        have covered := inv.covered type
        have bound := fewer type
        rw [same]
        omega
      · rw [same]
        exact inv.exclusive_le
      · rw [same]
        exact inv.advisory_le
  | obtains type updated gained => exact inv.preserved_obtains procs updated gained
  | upgrades updated gained entitled => exact inv.preserved_upgrades procs updated gained entitled
  | downgrades updated exclusive advisory read entitled =>
      exact inv.preserved_downgrades procs updated exclusive advisory read entitled
  | unlocks type updated lost entitled => exact inv.preserved_unlocks procs updated lost entitled
  | resets row fewer unclaimed =>
      have none : ∀ type, totalClaims next type = 0 := by
        intro type
        have total := totalClaims_setProc procs type
        have before : totalClaims state type = 0 :=
          Finset.sum_eq_zero fun other _ => unclaimed other type
        have bound := fewer type
        omega
      refine ⟨fun type => ?_, ?_, ?_, inv.alone_of_fewer procs fewer⟩
      · rw [none type]
        exact Nat.zero_le _
      · rw [row]
        exact Nat.zero_le 1
      · rw [row]
        exact Nat.zero_le 1

end Invariant

end Exclusion

/-! ## Runs -/

section Runs

variable {Pid : Type} [LinearOrder Pid]

/-- In every state of a careful run the locks exclude each other. -/
theorem carefulRun_mutuallyExclusive [Fintype Pid] (host : LockHost Pid)
    (events : List (LockEvent Pid)) (final : LockState Pid)
    (run : Lib.runEvents (lockStep host) {} events = some final)
    (careful : Lib.MeetsAlong (lockStep host) (CarefulStep host) {} events) :
    MutuallyExclusive final := by
  apply LockInv.mutuallyExclusive
  apply Lib.runEvents_invariant _ run careful LockInv.initial
  intro state event next inv carefulStep step
  obtain ⟨pid, effect⟩ := lockStep_effect step carefulStep
  exact inv.preserved effect

/-- A process that obtains the exclusive lock, step by step. -/
def exclusiveRun : List (LockEvent Bool) :=
  [.call false (.obtain .exclusive), .exec false, .exec false]

theorem exclusiveRun_mutuallyExclusive :
    ∃ final, Lib.runEvents (lockStep {}) {} exclusiveRun = some final ∧
      (final.procs false).held .exclusive = 1 ∧ MutuallyExclusive final := by
  refine ⟨_, rfl, rfl, carefulRun_mutuallyExclusive {} exclusiveRun _ rfl ?_⟩
  refine ⟨trivial, fun next step => ?_⟩
  cases Option.some.inj step
  refine ⟨⟨fun _ => rfl, fun type starts => ?_⟩, fun next step => ?_⟩
  · cases starts
  · cases Option.some.inj step
    exact ⟨trivial, fun _ _ => trivial⟩

/-- Between the update and the insertion of one process another one finds no pid,
resets the row and obtains the lock as well. -/
def windowRun : List (LockEvent Bool) :=
  [.call false (.obtain .exclusive), .exec false, .call true (.obtain .exclusive), .exec true,
    .exec true, .exec true, .exec true, .exec true, .exec true, .exec false]

theorem windowRun_not_mutuallyExclusive :
    ¬∀ (events : List (LockEvent Bool)) (final : LockState Bool),
      Lib.runEvents (lockStep {}) {} events = some final → MutuallyExclusive final := by
  intro claim
  have excluded := claim windowRun _ rfl false true rfl rfl Bool.false_ne_true (by decide)
    .exclusive
  exact absurd excluded (by decide)

end Runs

end Pkgng
