import Mathlib.Algebra.BigOperators.Group.Finset.Piecewise
import Mathlib.Algebra.Order.BigOperators.Group.Finset
import Pkgng.Db.LockCalls

/-!
# The lock tables and the holders

Whole calls, executed one at a time by processes that stay alive.  `pkg_lock_pid`
records a process once, however many locks it holds, so the tables agree with the
holders as long as no process gives up one of two locks or asks for a lock on top
of another.
-/

set_option autoImplicit false

namespace Pkgng

section Conditions

variable {Pid : Type} [LinearOrder Pid]

/-- The states between calls that meet the condition. -/
inductive CallsReach (host : LockHost Pid)
    (condition : LockState Pid → Pid → LockCall → Prop) : LockState Pid → Prop
  | start : CallsReach host condition {}
  | call {state final : LockState Pid} {pid : Pid} {call : LockCall}
      (before : CallsReach host condition state) (meets : condition state pid call)
      (returns : Returns host pid
        (state.setProc pid ((state.procs pid).begin host call)) final) :
      CallsReach host condition final

/-- A process releases only a lock it holds. -/
def ReleasesHeld (state : LockState Pid) (pid : Pid) : LockCall → Prop
  | .release type => 0 < (state.procs pid).held type
  | _ => True

structure TablesAgree [Fintype Pid] (state : LockState Pid) : Prop where
  read : state.row.read = ∑ pid, (state.procs pid).held .readonly
  advisory : state.row.advisory = 1 ↔ ∃ pid, 0 < (state.procs pid).held .advisory
  exclusive : state.row.exclusive = 1 ↔ ∃ pid, 0 < (state.procs pid).held .exclusive
  pids : ∀ pid, (∃ type, 0 < (state.procs pid).held type) → pid ∈ state.pids

def LockProc.HoldsNothing (proc : LockProc Pid) : Prop := ∀ type, proc.held type = 0

def LockProc.HoldsOnly (proc : LockProc Pid) (type : LockType) : Prop :=
  0 < proc.held type ∧ ∀ other, other ≠ type → proc.held other = 0

def OthersHold (state : LockState Pid) (pid : Pid) : Prop :=
  ∃ other, other ≠ pid ∧ ¬(state.procs other).HoldsNothing

/-- The locks with which a process may ask for the update: it does not put a second
lock beside the first, and where the row refuses the update the lock is not reset
under anybody. -/
def CarefulUpdate (state : LockState Pid) (pid : Pid) (sql : LockSql) : Prop :=
  match sql with
  | .obtain type =>
      (state.procs pid).HoldsNothing ∨
        (sql.update state.row = none ∧
          (OthersHold state pid ∨ type ≠ .readonly ∧ (state.procs pid).HoldsOnly type))
  | .upgrade =>
      (state.procs pid).HoldsOnly .advisory ∨
        (sql.update state.row = none ∧
          (OthersHold state pid ∨ (state.procs pid).HoldsNothing ∨
            (state.procs pid).HoldsOnly .exclusive))
  | .downgrade =>
      0 < (state.procs pid).held .exclusive ∨
        (sql.update state.row = none ∧
          (OthersHold state pid ∨ (state.procs pid).held .readonly = 0))

/-- The condition on an update: besides `CarefulUpdate`, a process that gets the
read lock can write the database, and one that looks for stale pids may signal
every process that holds a lock. -/
def CarefulAttempt (host : LockHost Pid) (state : LockState Pid) (pid : Pid)
    (sql : LockSql) : Prop :=
  (sql = .obtain .readonly → host.writable pid = true) ∧
    (sql.update state.row = none →
      ∀ other, ¬(state.procs other).HoldsNothing → host.maySignal pid other = true) ∧
    CarefulUpdate state pid sql

/-- The condition on a call, given that it releases only a lock it holds. -/
def CarefulCall (host : LockHost Pid) (state : LockState Pid) (pid : Pid) : LockCall → Prop
  | .obtain type => CarefulAttempt host state pid (.obtain type)
  | .upgrade .advisory .exclusive => CarefulAttempt host state pid .upgrade
  | .downgrade .exclusive .advisory => CarefulAttempt host state pid .downgrade
  | .release type => ∀ other, other ≠ type → (state.procs pid).held other = 0
  | _ => True

end Conditions

/-! ## The invariant between calls -/

theorem othersHold_withProc {Pid : Type} [LinearOrder Pid] {state : LockState Pid} {pid : Pid}
    {row : LockRow} {pids : List Pid} {proc : LockProc Pid} :
    OthersHold (state.withProc pid row pids proc) pid ↔ OthersHold state pid := by
  constructor
  · rintro ⟨other, different, holds⟩
    rw [withProc_procs_of_ne different] at holds
    exact ⟨other, different, holds⟩
  · rintro ⟨other, different, holds⟩
    refine ⟨other, different, ?_⟩
    rwa [withProc_procs_of_ne different]

theorem LockProc.HoldsNothing.not_of_held {Pid : Type} {proc : LockProc Pid}
    (type : LockType) (held : 0 < proc.held type) : ¬proc.HoldsNothing := by
  intro nothing
  rw [nothing type] at held
  exact Nat.lt_irrefl 0 held

section Invariant

variable {Pid : Type} [Fintype Pid]

structure HolderInv (state : LockState Pid) : Prop where
  alive : ∀ pid, (state.procs pid).alive = true
  idle : ∀ pid, (state.procs pid).pc = .idle
  column : ∀ type, state.row.column type = ∑ pid, (state.procs pid).held type
  exclusive_le : state.row.exclusive ≤ 1
  advisory_le : state.row.advisory ≤ 1
  pids : ∀ pid, pid ∈ state.pids ↔ ¬(state.procs pid).HoldsNothing
  alone : ∀ pid, 0 < (state.procs pid).held .exclusive → ¬OthersHold state pid
  reader : ∀ pid, 0 < (state.procs pid).held .readonly →
    (state.procs pid).held .readonly = 1 ∧ (state.procs pid).HoldsOnly .readonly

theorem HolderInv.start : HolderInv ({} : LockState Pid) where
  alive _ := rfl
  idle _ := rfl
  column type := by cases type <;> simp [LockRow.column]
  exclusive_le := Nat.zero_le 1
  advisory_le := Nat.zero_le 1
  pids pid := by
    constructor
    · intro member
      cases member
    · intro holds
      exact absurd (fun _ => rfl) holds
  alone _ held := absurd held (Nat.lt_irrefl 0)
  reader _ held := absurd held (Nat.lt_irrefl 0)

namespace HolderInv

variable {state : LockState Pid} {pid other : Pid} {type : LockType}

theorem held_le_column (inv : HolderInv state) (pid : Pid) (type : LockType) :
    (state.procs pid).held type ≤ state.row.column type := by
  rw [inv.column type]
  exact Finset.single_le_sum (f := fun pid => (state.procs pid).held type)
    (fun _ _ => Nat.zero_le _) (Finset.mem_univ pid)

theorem held_of_column (inv : HolderInv state) (type : LockType)
    (positive : 0 < state.row.column type) :
    ∃ pid, 0 < (state.procs pid).held type := by
  rw [inv.column type, Finset.sum_pos_iff] at positive
  obtain ⟨pid, _, held⟩ := positive
  exact ⟨pid, held⟩

/-- A column that is at most one has one holder. -/
theorem held_unique (inv : HolderInv state) (type : LockType)
    (column : state.row.column type ≤ 1) (held : 0 < (state.procs pid).held type) (different : other ≠ pid) :
    (state.procs other).held type = 0 := by
  have pair := Finset.add_le_sum (f := fun pid => (state.procs pid).held type)
    (fun _ _ => Nat.zero_le _) (Finset.mem_univ pid) (Finset.mem_univ other) different.symm
  rw [← inv.column type] at pair
  omega

/-- While nobody else holds a lock, the row holds the locks of the process. -/
theorem column_of_nobody (inv : HolderInv state) (nobody : ¬OthersHold state pid)
    (type : LockType) : state.row.column type = (state.procs pid).held type := by
  rw [inv.column type]
  apply Finset.sum_eq_single pid
  · intro other _ different
    by_contra held
    exact nobody ⟨other, different, fun nothing => held (nothing type)⟩
  · intro missing
    exact absurd (Finset.mem_univ pid) missing

theorem tablesAgree (inv : HolderInv state) : TablesAgree state where
  read := inv.column .readonly
  advisory := by
    constructor
    · intro held
      exact inv.held_of_column .advisory (by simp [LockRow.column, held])
    · rintro ⟨pid, held⟩
      have bound := inv.held_le_column pid .advisory
      have le := inv.advisory_le
      simp only [LockRow.column] at bound
      omega
  exclusive := by
    constructor
    · intro held
      exact inv.held_of_column .exclusive (by simp [LockRow.column, held])
    · rintro ⟨pid, held⟩
      have bound := inv.held_le_column pid .exclusive
      have le := inv.exclusive_le
      simp only [LockRow.column] at bound
      omega
  pids pid holds := by
    obtain ⟨type, held⟩ := holds
    rw [inv.pids]
    exact LockProc.HoldsNothing.not_of_held _ held

/-- The column of a lock that only one process holds fits only its type. -/
theorem row_of_holdsOnly (inv : HolderInv state) (nobody : ¬OthersHold state pid)
    (notRead : type ≠ .readonly) (only : (state.procs pid).HoldsOnly type)
    (other : LockType) : state.row.column other = if other = type then 1 else 0 := by
  have own := inv.column_of_nobody nobody other
  have exclusive_le := inv.exclusive_le
  have advisory_le := inv.advisory_le
  obtain ⟨held, rest⟩ := only
  by_cases same : other = type
  · subst same
    rw [if_pos rfl]
    cases other with
    | readonly => exact absurd rfl notRead
    | advisory =>
        simp only [LockRow.column] at own ⊢
        omega
    | exclusive =>
        simp only [LockRow.column] at own ⊢
        omega
  · rw [if_neg same, own]
    exact rest other same

theorem row_of_holdsNothing (inv : HolderInv state) (nobody : ¬OthersHold state pid)
    (nothing : (state.procs pid).HoldsNothing) (type : LockType) :
    state.row.column type = 0 := by
  rw [inv.column_of_nobody nobody type]
  exact nothing type

theorem live {host : LockHost Pid} (inv : HolderInv state)
    (signals : ∀ other, ¬(state.procs other).HoldsNothing → host.maySignal pid other = true) :
    ∀ other ∈ state.pids, other ≠ pid →
      (state.procs other).alive = true ∧ host.maySignal pid other = true := by
  intro other member _
  exact ⟨inv.alive other, signals other ((inv.pids other).mp member)⟩

end HolderInv

section Preserved

variable [LinearOrder Pid] {state : LockState Pid} {pid : Pid} {row : LockRow}
  {pids : List Pid} {proc : LockProc Pid}

namespace HolderInv

theorem withProc (inv : HolderInv state) (alive : proc.alive = true) (idle : proc.pc = .idle)
    (column : ∀ type, row.column type + (state.procs pid).held type =
      state.row.column type + proc.held type)
    (exclusive_le : row.exclusive ≤ 1) (advisory_le : row.advisory ≤ 1)
    (own : pid ∈ pids ↔ ¬proc.HoldsNothing)
    (others : ∀ other, other ≠ pid → (other ∈ pids ↔ other ∈ state.pids))
    (alone : 0 < proc.held .exclusive → ¬OthersHold state pid)
    (compatible : ∀ other, other ≠ pid → 0 < (state.procs other).held .exclusive →
      proc.HoldsNothing)
    (reader : 0 < proc.held .readonly → proc.held .readonly = 1 ∧ proc.HoldsOnly .readonly) :
    HolderInv (state.withProc pid row pids proc) where
  alive other := by
    by_cases same : other = pid
    · subst same
      rwa [withProc_procs_self]
    · rw [withProc_procs_of_ne same]
      exact inv.alive other
  idle other := by
    by_cases same : other = pid
    · subst same
      rwa [withProc_procs_self]
    · rw [withProc_procs_of_ne same]
      exact inv.idle other
  column type := by
    have sum := Lib.sum_step (fun proc => proc.held type) state.procs pid proc
    have after := column type
    rw [inv.column type] at after
    show row.column type = ∑ other, (Function.update state.procs pid proc other).held type
    omega
  exclusive_le := exclusive_le
  advisory_le := advisory_le
  pids other := by
    by_cases same : other = pid
    · subst same
      rw [withProc_procs_self]
      exact own
    · rw [withProc_procs_of_ne same, ← inv.pids other]
      exact others other same
  alone holder held := by
    by_cases same : holder = pid
    · subst same
      rw [withProc_procs_self] at held
      rw [othersHold_withProc]
      exact alone held
    · rw [withProc_procs_of_ne same] at held
      rintro ⟨other, different, holds⟩
      by_cases own : other = pid
      · subst own
        rw [withProc_procs_self] at holds
        exact holds (compatible holder same held)
      · rw [withProc_procs_of_ne own] at holds
        exact inv.alone holder held ⟨other, different, holds⟩
  reader holder held := by
    by_cases same : holder = pid
    · subst same
      rw [withProc_procs_self] at held ⊢
      exact reader held
    · rw [withProc_procs_of_ne same] at held ⊢
      exact inv.reader holder held

/-- A call that fails leaves the tables and the holders. -/
theorem finish (inv : HolderInv state) (pid : Pid) (ret : Epkg) :
    HolderInv (state.withProc pid state.row state.pids ((state.procs pid).finish ret)) := by
  apply inv.withProc
  · exact inv.alive pid
  · rfl
  · intro type
    rfl
  · exact inv.exclusive_le
  · exact inv.advisory_le
  · exact inv.pids pid
  · intro other _
    rfl
  · exact inv.alone pid
  · intro other different held type
    by_contra holds
    exact inv.alone other held ⟨pid, different.symm, fun nothing => holds (nothing type)⟩
  · exact inv.reader pid

/-- While nobody else holds a lock, the tables only have to fit the process. -/
theorem lonely (inv : HolderInv state) (nobody : ¬OthersHold state pid)
    (alive : proc.alive = true) (idle : proc.pc = .idle)
    (column : ∀ type, row.column type = proc.held type)
    (exclusive_le : row.exclusive ≤ 1) (advisory_le : row.advisory ≤ 1)
    (own : pid ∈ pids ↔ ¬proc.HoldsNothing) (others : ∀ other ∈ pids, other = pid)
    (reader : proc.held .readonly = 0) :
    HolderInv (state.withProc pid row pids proc) := by
  apply inv.withProc alive idle
  · intro type
    rw [column type, inv.column_of_nobody nobody type]
    omega
  · exact exclusive_le
  · exact advisory_le
  · exact own
  · intro other different
    constructor
    · intro member
      exact absurd (others other member) different
    · intro member
      exact absurd ⟨other, different, (inv.pids other).mp member⟩ nobody
  · intro _
    exact nobody
  · intro other different held
    exact absurd ⟨other, different, LockProc.HoldsNothing.not_of_held _ held⟩ nobody
  · intro held
    omega

end HolderInv

end Preserved

/-! ## Careful calls -/

section Careful

variable [LinearOrder Pid] {host : LockHost Pid} {state final : LockState Pid} {pid : Pid}

theorem HolderInv.obtain_granted (inv : HolderInv state) {type : LockType} {row : LockRow}
    (updated : (LockSql.obtain type).update state.row = some row)
    (nothing : (state.procs pid).HoldsNothing) :
    HolderInv (state.withProc pid row (state.pids.orderedInsert (· ≤ ·) pid)
      ((state.procs pid).succeed (.obtain type))) := by
  have column := LockSql.obtain_column updated
  have free := LockSql.obtain_free updated
  have held : ∀ other, ((state.procs pid).succeed (.obtain type)).held other =
      if other = type then 1 else 0 := by
    intro other
    by_cases same : other = type
    · subst same
      simp [LockProc.succeed, LockSql.grant, nothing other]
    · simp [LockProc.succeed, LockSql.grant, same, nothing other]
  have exclusive_le := inv.exclusive_le
  have advisory_le := inv.advisory_le
  apply inv.withProc
  · exact inv.alive pid
  · rfl
  · intro other
    rw [held other, column other, nothing other]
    omega
  · have after := column .exclusive
    simp only [LockRow.column] at after
    split at after <;> omega
  · have after := column .advisory
    simp only [LockRow.column] at after
    split at after
    · next advisory =>
        subst advisory
        simp only [LockSql.update, Option.ite_none_right_eq_some] at updated
        omega
    · omega
  · constructor
    · intro _
      exact LockProc.HoldsNothing.not_of_held type (by rw [held type]; simp)
    · intro _
      exact (List.mem_orderedInsert (· ≤ ·)).mpr (Or.inl rfl)
  · intro other different
    simp [different]
  · intro exclusive
    rw [held .exclusive] at exclusive
    split at exclusive
    · next exclusiveType =>
        subst exclusiveType
        simp only [LockSql.update, Option.ite_none_right_eq_some] at updated
        rintro ⟨other, _, holds⟩
        apply holds
        intro otherType
        have bound := inv.held_le_column other otherType
        cases otherType <;> simp only [LockRow.column] at bound <;> omega
    · exact absurd exclusive (Nat.lt_irrefl 0)
  · intro other _ exclusive
    have bound := inv.held_le_column other .exclusive
    simp only [LockRow.column] at bound
    omega
  · intro readonly
    rw [held .readonly] at readonly ⊢
    split at readonly
    · next read =>
        refine ⟨if_pos read, ?_, fun other different => ?_⟩
        · rw [held .readonly, if_pos read]
          exact Nat.one_pos
        · rw [held other, if_neg]
          rwa [← read]
    · exact absurd readonly (Nat.lt_irrefl 0)

theorem HolderInv.upgrade_granted (inv : HolderInv state) {row : LockRow}
    (updated : LockSql.upgrade.update state.row = some row)
    (advisory : (state.procs pid).HoldsOnly .advisory) :
    HolderInv (state.withProc pid row state.pids ((state.procs pid).succeed .upgrade)) := by
  simp only [LockSql.update, Option.ite_none_right_eq_some, Option.some.injEq] at updated
  obtain ⟨guard, rfl⟩ := updated
  have nobody : ¬OthersHold state pid := by
    rintro ⟨other, different, holds⟩
    apply holds
    intro type
    have bound := inv.held_le_column other type
    cases type with
    | readonly =>
        simp only [LockRow.column] at bound
        omega
    | advisory =>
        exact inv.held_unique .advisory inv.advisory_le advisory.1 different
    | exclusive =>
        simp only [LockRow.column] at bound
        omega
  have own := inv.column_of_nobody nobody
  have readonly := own .readonly
  have advisoryHeld := own .advisory
  simp only [LockRow.column] at readonly advisoryHeld
  have holds := (inv.pids pid).mpr (LockProc.HoldsNothing.not_of_held .advisory advisory.1)
  apply inv.lonely nobody
  · exact inv.alive pid
  · rfl
  · intro type
    cases type <;> simp [LockRow.column, LockProc.succeed, LockSql.grant] <;> omega
  · exact Nat.le_refl 1
  · exact Nat.le_refl 1
  · constructor
    · intro _
      apply LockProc.HoldsNothing.not_of_held .exclusive
      simp [LockProc.succeed, LockSql.grant]
    · intro _
      exact holds
  · intro other member
    by_contra different
    exact nobody ⟨other, different, (inv.pids other).mp member⟩
  · simp only [LockProc.succeed, LockSql.grant]
    rw [Function.update_of_ne (by decide)]
    omega

theorem HolderInv.downgrade_granted (inv : HolderInv state) {row : LockRow}
    (updated : LockSql.downgrade.update state.row = some row)
    (exclusive : 0 < (state.procs pid).held .exclusive) :
    HolderInv (state.withProc pid row state.pids ((state.procs pid).succeed .downgrade)) := by
  simp only [LockSql.update, Option.ite_none_right_eq_some, Option.some.injEq] at updated
  obtain ⟨guard, rfl⟩ := updated
  have nobody := inv.alone pid exclusive
  have own := inv.column_of_nobody nobody
  have readonly := own .readonly
  have advisory := own .advisory
  simp only [LockRow.column] at readonly advisory
  have holds := (inv.pids pid).mpr (LockProc.HoldsNothing.not_of_held _ exclusive)
  apply inv.lonely nobody
  · exact inv.alive pid
  · rfl
  · intro type
    cases type <;> simp [LockRow.column, LockProc.succeed, LockSql.grant] <;> omega
  · exact Nat.zero_le 1
  · exact Nat.le_refl 1
  · constructor
    · intro _
      apply LockProc.HoldsNothing.not_of_held .advisory
      simp [LockProc.succeed, LockSql.grant]
    · intro _
      exact holds
  · intro other member
    by_contra different
    exact nobody ⟨other, different, (inv.pids other).mp member⟩
  · simp only [LockProc.succeed, LockSql.grant]
    rw [Function.update_of_ne (by decide), Function.update_of_ne (by decide)]
    omega

/-- Obtaining from the beginning while nobody else holds a lock. -/
theorem HolderInv.obtain_afterReset (inv : HolderInv state) (nobody : ¬OthersHold state pid)
    {request : LockSql} (type : LockType) (notRead : type ≠ .readonly)
    {row : LockRow} (updated : (LockSql.obtain type).update {} = some row)
    (held : ∀ other, request.grant (state.procs pid).held other = if other = type then 1 else 0)
    {pids : List Pid} (pids_eq : pids = state.pids.filter (· ≠ pid)) :
    HolderInv (state.withProc pid row (pids.orderedInsert (· ≤ ·) pid)
      ((state.procs pid).succeed request)) := by
  have column := LockSql.obtain_column updated
  have others : ∀ other ∈ pids, other = pid := by
    intro other member
    by_contra different
    rw [pids_eq, List.mem_filter] at member
    exact nobody ⟨other, different, (inv.pids other).mp member.1⟩
  apply inv.lonely nobody
  · exact inv.alive pid
  · rfl
  · intro other
    rw [column other]
    show _ = request.grant (state.procs pid).held other
    rw [held other]
    cases other <;> simp [LockRow.column]
  · have after := column .exclusive
    simp only [LockRow.column] at after
    split at after <;> omega
  · have after := column .advisory
    simp only [LockRow.column] at after
    split at after <;> omega
  · constructor
    · intro _
      apply LockProc.HoldsNothing.not_of_held type
      show 0 < request.grant (state.procs pid).held type
      rw [held type, if_pos rfl]
      exact Nat.one_pos
    · intro _
      exact (List.mem_orderedInsert (· ≤ ·)).mpr (Or.inl rfl)
  · intro other member
    rcases (List.mem_orderedInsert (· ≤ ·)).mp member with own | rest
    · exact own
    · exact others other rest
  · show request.grant (state.procs pid).held .readonly = 0
    rw [held .readonly, if_neg notRead.symm]

theorem HolderInv.obtain_refused (inv : HolderInv state) {type : LockType}
    (writable : host.writable pid = true) (retries : (0 : Int) ≤ host.lockRetries)
    (refused : (LockSql.obtain type).update state.row = none)
    (nobody : ¬OthersHold state pid) (careful : CarefulUpdate state pid (.obtain type))
    (returns : Returns host pid (state.busy pid state.row state.pids
      (.execLock { request := .obtain type })) final) : HolderInv final := by
  have nobodyListed : ∀ other ∈ state.pids, other = pid := by
    intro other member
    by_contra different
    exact nobody ⟨other, different, (inv.pids other).mp member⟩
  rcases careful with nothing | ⟨_, others | ⟨notRead, only⟩⟩
  · have free := inv.row_of_holdsNothing nobody nothing
    have readonly := free .readonly
    have advisory := free .advisory
    have exclusive := free .exclusive
    simp only [LockRow.column] at readonly advisory exclusive
    cases type <;> simp [LockSql.update, readonly, advisory, exclusive] at refused
  · exact absurd others nobody
  · obtain ⟨row, updated⟩ : ∃ row, (LockSql.obtain type).update {} = some row := by
      cases type <;> exact ⟨_, rfl⟩
    rw [returns_resetObtain writable refused nobodyListed retries rfl,
      returns_obtained writable updated rfl] at returns
    have listed : pid ∈ state.pids :=
      (inv.pids pid).mpr (LockProc.HoldsNothing.not_of_held _ only.1)
    rw [if_pos listed] at returns
    have before := inv.row_of_holdsOnly nobody notRead only
    have after := LockSql.obtain_column updated
    have same : row = state.row := by
      apply LockRow.ext_column
      intro other
      rw [after other, before other, LockRow.column_empty, Nat.zero_add]
    rw [returns, same]
    exact inv.finish pid .fatal

theorem HolderInv.upgrade_refused (inv : HolderInv state)
    (writable : host.writable pid = true) (retries : (0 : Int) ≤ host.lockRetries)
    (refused : LockSql.upgrade.update state.row = none)
    (nobody : ¬OthersHold state pid) (careful : CarefulUpdate state pid .upgrade)
    (returns : Returns host pid (state.busy pid state.row state.pids
      (.execLock { request := .upgrade })) final) : HolderInv final := by
  have nobodyListed : ∀ other ∈ state.pids, other = pid := by
    intro other member
    by_contra different
    exact nobody ⟨other, different, (inv.pids other).mp member⟩
  have without : ∀ other, other ≠ .exclusive → (state.procs pid).held other = 0 := by
    intro other different
    rcases careful with advisory | ⟨_, others | nothing | exclusive⟩
    · have row := inv.row_of_holdsOnly nobody (by decide) advisory
      have rowExclusive := row .exclusive
      have rowAdvisory := row .advisory
      have rowRead := row .readonly
      simp only [LockRow.column] at rowExclusive rowAdvisory rowRead
      simp [LockSql.update, rowExclusive, rowAdvisory, rowRead] at refused
    · exact absurd others nobody
    · exact nothing other
    · exact exclusive.2 other different
  rw [returns_resetUpgrade writable refused nobodyListed retries rfl,
    returns_obtained writable (show _ = some ({ exclusive := 1 } : LockRow) from rfl) rfl,
    if_neg (by simp [List.mem_filter])] at returns
  rw [returns]
  apply inv.obtain_afterReset nobody .exclusive (by decide) rfl _ rfl
  intro other
  by_cases same : other = .exclusive
  · subst same
    simp [LockSql.grant]
  · simp [LockSql.grant, same, without other same]

theorem HolderInv.downgrade_refused (inv : HolderInv state)
    (writable : host.writable pid = true) (retries : (0 : Int) ≤ host.lockRetries)
    (refused : LockSql.downgrade.update state.row = none)
    (nobody : ¬OthersHold state pid) (careful : CarefulUpdate state pid .downgrade)
    (returns : Returns host pid (state.busy pid state.row state.pids
      (.execLock { request := .downgrade })) final) : HolderInv final := by
  have nobodyListed : ∀ other ∈ state.pids, other = pid := by
    intro other member
    by_contra different
    exact nobody ⟨other, different, (inv.pids other).mp member⟩
  have readonly : (state.procs pid).held .readonly = 0 := by
    rcases careful with exclusive | ⟨_, others | readonly⟩
    · by_contra reads
      have only := (inv.reader pid (by omega)).2
      have none := only.2 .exclusive (by decide)
      omega
    · exact absurd others nobody
    · exact readonly
  have advisory_le : (state.procs pid).held .advisory ≤ 1 :=
    Nat.le_trans (inv.held_le_column pid .advisory) inv.advisory_le
  rw [returns_resetUpgrade writable refused nobodyListed retries rfl,
    returns_obtained writable (show _ = some ({ advisory := 1 } : LockRow) from rfl) rfl,
    if_neg (by simp [List.mem_filter])] at returns
  rw [returns]
  apply inv.obtain_afterReset nobody .advisory (by decide) rfl _ rfl
  intro other
  cases other <;> simp [LockSql.grant, readonly, advisory_le]

/-- A careful call of `pkgdb_try_lock` keeps the invariant. -/
theorem HolderInv.attempt (inv : HolderInv state) {sql : LockSql}
    (careful : CarefulAttempt host state pid sql)
    (returns : Returns host pid
      (state.setProc pid ((state.procs pid).enterLoop host { request := sql })) final) :
    HolderInv final := by
  obtain ⟨writes, signals, update⟩ := careful
  unfold LockProc.enterLoop at returns
  split at returns
  · next retries =>
      have busy : state.setProc pid ((state.procs pid).goto (.execLock { request := sql })) =
          state.busy pid state.row state.pids (.execLock { request := sql }) := rfl
      rw [busy] at returns
      by_cases writable : host.writable pid = true
      · cases updated : sql.update state.row with
        | none =>
            by_cases others : OthersHold state pid
            · obtain ⟨other, different, holds⟩ := others
              rw [returns_waiting writable updated (inv.live (signals updated))
                ⟨other, (inv.pids other).mpr holds, different⟩] at returns
              rw [returns]
              exact inv.finish pid .finished
            · cases sql with
              | obtain type =>
                  exact inv.obtain_refused writable retries updated others update returns
              | upgrade => exact inv.upgrade_refused writable retries updated others update returns
              | downgrade =>
                  exact inv.downgrade_refused writable retries updated others update returns
        | some row =>
            cases sql with
            | obtain type =>
                have nothing : (state.procs pid).HoldsNothing := by
                  rcases update with nothing | ⟨refused, _⟩
                  · exact nothing
                  · rw [refused] at updated
                    cases updated
                have unlisted : pid ∉ state.pids := by
                  intro listed
                  exact (inv.pids pid).mp listed nothing
                rw [returns_obtained writable updated rfl, if_neg unlisted] at returns
                rw [returns]
                exact inv.obtain_granted updated nothing
            | upgrade =>
                have advisory : (state.procs pid).HoldsOnly .advisory := by
                  rcases update with advisory | ⟨refused, _⟩
                  · exact advisory
                  · rw [refused] at updated
                    cases updated
                rw [returns_upgraded writable updated rfl] at returns
                rw [returns]
                exact inv.upgrade_granted updated advisory
            | downgrade =>
                have exclusive : 0 < (state.procs pid).held .exclusive := by
                  rcases update with exclusive | ⟨refused, _⟩
                  · exact exclusive
                  · rw [refused] at updated
                    cases updated
                rw [returns_upgraded writable updated rfl] at returns
                rw [returns]
                exact inv.downgrade_granted updated exclusive
      · have readOnly : host.writable pid = false := by simpa using writable
        have notRead : ({ request := sql } : Attempt).sql.type ≠ .readonly := by
          intro type
          apply writable
          apply writes
          cases sql with
          | obtain other => exact congrArg LockSql.obtain type
          | upgrade => cases type
          | downgrade => cases type
        rw [returns_busy, exec_readOnly _ _ _ _ _ _ readOnly notRead, returns_done rfl] at returns
        rw [returns]
        exact inv.finish pid .fatal
  · have failed : state.setProc pid ((state.procs pid).finish .finished) =
        state.withProc pid state.row state.pids ((state.procs pid).finish .finished) := rfl
    rw [failed, returns_done rfl] at returns
    rw [returns]
    exact inv.finish pid .finished

theorem HolderInv.release (inv : HolderInv state) {type : LockType}
    (held : 0 < (state.procs pid).held type)
    (only : ∀ other, other ≠ type → (state.procs pid).held other = 0)
    (returns : Returns host pid
      (state.busy pid state.row state.pids (.execUnlock type)) final) : HolderInv final := by
  cases writable : host.writable pid with
  | false =>
      rw [returns_release_readOnly writable] at returns
      rw [returns]
      exact inv.finish pid .fatal
  | true =>
      have positive : 0 < state.row.column type :=
        Nat.lt_of_lt_of_le held (inv.held_le_column pid type)
      have exclusive_le := inv.exclusive_le
      have advisory_le := inv.advisory_le
      obtain ⟨row, updated⟩ : ∃ row, type.unlock state.row = some row := by
        cases type with
        | readonly => exact ⟨_, if_pos positive⟩
        | advisory =>
            simp only [LockRow.column] at positive
            exact ⟨_, if_pos (by omega)⟩
        | exclusive =>
            simp only [LockRow.column] at positive
            exact ⟨_, if_pos (by omega)⟩
      have column := LockType.unlock_column updated
      have one : (state.procs pid).held type = 1 := by
        have bound := inv.held_le_column pid type
        cases type with
        | readonly => exact (inv.reader pid held).1
        | advisory =>
            simp only [LockRow.column] at bound
            omega
        | exclusive =>
            simp only [LockRow.column] at bound
            omega
      have nothing : (((state.procs pid).unlocked type).finish .ok).HoldsNothing := by
        intro other
        by_cases same : other = type
        · subst same
          simp [LockProc.unlocked, LockProc.finish, one]
        · simp [LockProc.unlocked, LockProc.finish, same, only other same]
      rw [returns_release writable updated] at returns
      rw [returns]
      apply inv.withProc
      · exact inv.alive pid
      · rfl
      · intro other
        rw [nothing other, column other]
        by_cases same : other = type
        · subst same
          rw [if_pos rfl, one]
          omega
        · rw [if_neg same, only other same]
          omega
      · have after := column .exclusive
        simp only [LockRow.column] at after
        omega
      · have after := column .advisory
        simp only [LockRow.column] at after
        omega
      · simpa [List.mem_filter] using nothing
      · intro other different
        simp [different]
      · intro exclusive
        exact absurd nothing (LockProc.HoldsNothing.not_of_held _ exclusive)
      · intro _ _ _
        exact nothing
      · intro readonly
        exact absurd nothing (LockProc.HoldsNothing.not_of_held _ readonly)

theorem HolderInv.call (inv : HolderInv state) {call : LockCall}
    (releases : ReleasesHeld state pid call) (careful : CarefulCall host state pid call)
    (returns : Returns host pid
      (state.setProc pid ((state.procs pid).begin host call)) final) : HolderInv final := by
  have refused : ∀ ret, Returns host pid (state.setProc pid ((state.procs pid).finish ret)) final →
      HolderInv final := by
    intro ret returns
    have failed : state.setProc pid ((state.procs pid).finish ret) =
        state.withProc pid state.row state.pids ((state.procs pid).finish ret) := rfl
    rw [failed, returns_done rfl] at returns
    rw [returns]
    exact inv.finish pid ret
  cases call with
  | obtain type => exact inv.attempt careful returns
  | upgrade oldType newType =>
      cases oldType <;> cases newType <;>
        first
        | exact refused .fatal returns
        | exact inv.attempt careful returns
  | downgrade oldType newType =>
      cases oldType <;> cases newType <;>
        first
        | exact refused .fatal returns
        | exact inv.attempt careful returns
  | release type => exact inv.release releases careful returns

end Careful

end Invariant

/-! ## Runs of whole calls -/

section Runs

variable {Pid : Type} [LinearOrder Pid] [Fintype Pid]

/-- After every call of a careful run the tables agree with the holders. -/
theorem carefulCalls_tablesAgree (host : LockHost Pid) (state : LockState Pid)
    (reach : CallsReach host
      (fun state pid call => ReleasesHeld state pid call ∧ CarefulCall host state pid call)
      state) : TablesAgree state := by
  apply HolderInv.tablesAgree
  induction reach with
  | start => exact HolderInv.start
  | call _ meets returns inv => exact inv.call meets.1 meets.2 returns

/-- One process obtains the advisory lock. -/
theorem advisoryHolder_tablesAgree :
    ∃ state : LockState Bool, (state.procs false).held .advisory = 1 ∧
      state.pids = [false] ∧ TablesAgree state := by
  refine ⟨_, ?_, ?_, carefulCalls_tablesAgree {} _
    (@CallsReach.call _ _ _ _ _ _ false (.obtain .advisory) .start ⟨trivial, ?_⟩ ⟨2, rfl⟩)⟩
  · rfl
  · rfl
  · refine ⟨nofun, nofun, Or.inl fun _ => rfl⟩

/-- The calls of `pkg_jobs_execute` and its caller up to the release of the exclusive
lock: the advisory lock is still held, but the pid is gone. -/
theorem upgradeThenRelease_not_tablesAgree :
    ¬∀ state : LockState Unit, CallsReach {} ReleasesHeld state → TablesAgree state := by
  intro claim
  have obtained : @CallsReach Unit _ {} ReleasesHeld _ :=
    @CallsReach.call _ _ _ _ _ _ () (.obtain .advisory) .start trivial ⟨2, rfl⟩
  have upgraded : @CallsReach Unit _ {} ReleasesHeld _ :=
    @CallsReach.call _ _ _ _ _ _ () (.upgrade .advisory .exclusive) obtained trivial ⟨1, rfl⟩
  have reach : @CallsReach Unit _ {} ReleasesHeld _ :=
    @CallsReach.call _ _ _ _ _ _ () (.release .exclusive) upgraded Nat.one_pos ⟨2, rfl⟩
  have listed := (claim _ reach).pids () ⟨.advisory, by decide⟩
  cases listed

end Runs

end Pkgng
