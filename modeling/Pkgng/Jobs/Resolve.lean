import Pkgng.Jobs.Conflicts
import Pkgng.Solve.Export

/-!
# Solving a job

`pkg_jobs_solve` prepares the request, runs a solver and then checks the files
of the chosen packages; when that registers conflicts, it drops the jobs and
calls itself again.  The databases, the configuration, the user and the solver
processes are functions on an abstract world; the counters and the job list are
modelled as they are.
-/

set_option autoImplicit false

namespace Pkgng

open Lib

/-- What `picosat_sat` finds: an assignment, or the failed assumptions. -/
inductive PicosatResult
  | satisfiable (σ : Nat → Bool)
  | unsatisfiable (failed : Int) (others : List Int)

/-- What the request functions change. -/
structure Request where
  univ : JobsUniverse
  requestAdd : List Addr
  requestDelete : List Addr
  errors : List String

/-- The world around `pkg_jobs_solve`. -/
structure SolverEnv (W : Type) where
  env : Env
  /-- The `jobs_solve_` function of the job's type, up to its counter. -/
  request : Jobs → W → Epkg × Request × W
  /-- Whether `CUDF_SOLVER` and `SAT_SOLVER` are set. -/
  cudfSolver : Bool := false
  satSolver : Bool := false
  /-- `process_spawn_pipe`; false for a child id of -1. -/
  spawn : W → Bool × W
  /-- `pkg_jobs_cudf_emit_file` and `pkg_jobs_cudf_parse_output`, with the jobs
  they append. -/
  cudf : Jobs → W → Epkg × List Solved × W
  /-- The assignment that `pkg_solve_parse_sat_output` reads, if it is complete. -/
  satOutput : List Char → W → Option (Nat → Bool) × W
  picosat : SolveProblem → W → PicosatResult
  /-- `pkg_emit_query_yesno`. -/
  queryYesno : String → W → Bool × W
  applyReplacements : List (Uid × Uid) → W → W
  /-- `pkgdb_ensure_loaded` finds the files of the package. -/
  filesLoaded : Pkg → W → Bool
  /-- `pkgdb_integrity_append` and `pkgdb_integrity_check`, with the arguments of
  the callbacks they make. -/
  integrityAppend : Pkg → W → Epkg × List (Uid × Uid) × W
  integrityCheck : W → Epkg × List (Uid × Uid) × W

/-- The part of `pkg_jobs_solve` that set the return code. -/
inductive Stage
  | request
  | external
  | builtin
deriving DecidableEq, Repr

/-- The job and the world. -/
structure Run (W : Type) where
  j : Jobs
  world : W
  /-- Ghost: for each failed solver invocation that the conflict loop made, the
  part in which it failed. -/
  failed : List Stage := []

namespace Jobs

def withRequest (j : Jobs) (request : Request) : Jobs :=
  { j with
    univ := request.univ
    requestAdd := request.requestAdd
    requestDelete := request.requestDelete
    errors := request.errors }

/-- The closing assignment of the `jobs_solve_` functions. -/
def countSolved (j : Jobs) : Jobs :=
  match j.type with
  | .deinstall => { j with solved := 1 }
  | .autoremove => { j with solved := 1 }
  | .install => { j with solved := j.solved + 1 }
  | .upgrade => { j with solved := j.solved + 1 }
  | .fetch => { j with solved := j.solved + 1 }

end Jobs

/-- `HASH_DEL` of the requests for some items. -/
def removeRequests (items requests : List Addr) : List Addr :=
  requests.filter fun item => item ∉ items

section UpgradeChains

variable (versionCmp : String → String → Int)

/-- The newest remote item of a chain. -/
def selectNewest (u : JobsUniverse) (chain : List Addr) : Option Addr :=
  chain.foldl (fun selected cur =>
    if (u.pkg cur).isInstalled then selected
    else
      match selected with
      | none => some cur
      | some best =>
          if pkgVersionUpgrades versionCmp (u.pkg cur) (u.pkg best) then some cur else some best)
    none

/-- One turn of the loop of `pkg_jobs_universe_process_upgrade_chains`; `none`
where its assertion fails. -/
def processUpgradeChain (j : Jobs) (head : Addr) : Option Jobs :=
  let chain := j.univ.chain head
  let drop (items : List Addr) : Jobs :=
    { j with requestAdd := removeRequests items j.requestAdd }
  match chain.reverse.find? fun cur => (j.pkg cur).isInstalled with
  | some lastLocal =>
      if (j.pkg lastLocal).locked then some (drop chain)
      else if 2 < chain.length then
        (selectNewest versionCmp j.univ chain).map fun selected =>
          drop (chain.filter fun cur => cur ≠ selected)
      else some j
  | none =>
      if 1 < chain.length then
        (selectNewest versionCmp j.univ chain).map fun selected =>
          drop (chain.filter fun cur => cur ≠ selected)
      else some j

def pkgJobsUniverseProcessUpgradeChains (j : Jobs) : Option Jobs :=
  j.univ.items.foldlM (fun j entry => processUpgradeChain versionCmp j entry.2) j

end UpgradeChains

section Solve

variable {W : Type} (world : SolverEnv W)

/-- The unit of `variables[*failed - 1]`.  A negative assumption is an index in
front of the array. -/
def failedUnit (problem : SolveProblem) (failed : Int) : Option Addr :=
  if 0 < failed then problem.unit (failed.toNat - 1) else none

def removeQuestion (install : Bool) (uid : Uid) : String :=
  "cannot " ++ (if install then "install" else "remove") ++ " package " ++ uid ++
    ", remove it from request? [Y/n]: "

/-- Deleting the request behind a failed assumption, if it is there. -/
def Jobs.dropRequest (j : Jobs) (install : Bool) (unit : Addr) : Option Jobs :=
  match install with
  | true =>
      if unit ∈ j.requestAdd then some { j with requestAdd := removeRequests [unit] j.requestAdd }
      else none
  | false =>
      if unit ∈ j.requestDelete then
        some { j with requestDelete := removeRequests [unit] j.requestDelete }
      else none

/-- The loop of `pkg_solve_sat_problem` over the failed assumptions. -/
def askToRemove (problem : SolveProblem) : List Int → Jobs → W → Option (Epkg × Jobs × W)
  | [], j, w => some (.again, j, w)
  | failed :: rest, j, w => do
      let unit ← failedUnit problem failed
      let var := failed.toNat - 1
      let (yes, w) := world.queryYesno (removeQuestion (problem.toInstall var) (problem.uid var)) w
      match yes, j.dropRequest (problem.toInstall var) unit with
      | false, _ => pure (.fatal, j, w)
      | true, none =>
          pure (.fatal, j.emitError ("cannot find " ++ problem.uid var ++ " in the request"), w)
      | true, some j => askToRemove problem rest j w

def pkgSolveSatProblem (problem : SolveProblem) (j : Jobs) (w : W) :
    Option (Epkg × SolveProblem × Jobs × W) :=
  match world.picosat problem w with
  | .satisfiable σ => some (.ok, problem.decided σ, j, w)
  | .unsatisfiable failed others => do
      let (rc, j, w) ← askToRemove world problem (failed :: others)
        (j.emitError "Cannot solve problem using SAT solver:") w
      pure (rc, problem, j, w)

/-- `SAT_SOLVER`: the problem is written to the solver and its answer read. -/
def externalSolver (fuel : Nat) (problem : SolveProblem) (j : Jobs) (w : W) :
    Option (Epkg × Jobs × W) :=
  let (spawned, w) := world.spawn w
  if !spawned then some (.fatal, j, w)
  else do
    let text ← pkgSolveDimacsExport fuel problem
    let (assignment, w) := world.satOutput text w
    match assignment with
    | some σ => pure (.ok, pkgSolveSatToJobs j (problem.decided σ), w)
    | none => pure (.fatal, j.emitError "cannot parse sat solver output", w)

/-- The code from the label `again` on. -/
def solveAgain : Nat → Jobs → W → Option (Epkg × Stage × Jobs × W)
  | 0, _, _ => none
  | fuel + 1, j, w => do
      let j ← pkgJobsUniverseProcessUpgradeChains world.env.versionCmp j
      match pkgSolveJobsToSat j with
      | none =>
          pure (.fatal, .builtin, { j.emitError "cannot convert job to SAT problem" with
            solved := 0 }, w)
      | some problem =>
          if world.satSolver then do
            let (ret, j, w) ← externalSolver world fuel problem j w
            pure (ret, .external, j, w)
          else do
            let (ret, problem, j, w) ← pkgSolveSatProblem world problem j w
            match ret with
            | .fatal =>
                pure (.fatal, .builtin, { j.emitError "cannot solve job using SAT solver" with
                  solved := 0 }, w)
            | .again => solveAgain fuel j w
            | _ => pure (.ok, .builtin, pkgSolveSatToJobs j problem, w)

def cudfSolve (j : Jobs) (w : W) : Epkg × Stage × Jobs × W :=
  let (spawned, w) := world.spawn w
  if !spawned then (.fatal, .external, j, w)
  else
    let (ret, appended, w) := world.cudf j w
    (ret, .external, { j with jobs := j.jobs ++ appended, count := j.count + appended.length }, w)

/-- The request and the solver: the first half of `pkg_jobs_solve`. -/
def runSolver (fuel : Nat) (j : Jobs) (w : W) : Option (Epkg × Stage × Jobs × W) :=
  let (ret, request, w) := world.request j w
  let j := j.withRequest request
  if ret ≠ .ok then some (ret, .request, j, w)
  else
    let j := j.countSolved
    if world.cudfSolver then some (cudfSolve world j w) else solveAgain world fuel j w

def pkgConflictsAppendPkg (p : Pkg) (j : Jobs) (w : W) : Epkg × Jobs × W :=
  let (res, pairs, w) := world.integrityAppend p w
  (res, pairs.foldl (fun j pair => pkgConflictsAddFromPkgdbRemote pair.1 pair.2 j) j, w)

def pkgConflictsIntegrityCheck (fuel : Nat) (j : Jobs) (w : W) : Option (Epkg × Jobs × W) := do
  let (res, pairs, w) := world.integrityCheck w
  let j ← pairs.foldlM (fun j pair =>
    pkgConflictsAddFromPkgdbLocal world.env fuel pair.1 pair.2 j) j
  pure (res, j, w)

/-- The packages whose files `pkg_jobs_check_conflicts` checks. -/
def checksFiles (j : Jobs) (ps : Solved) : Bool :=
  !(decide (ps.type = .delete) || decide (ps.type = .upgradeRemove)) &&
    (decide ((j.pkg ps.items0).type = .remote) || decide ((j.pkg ps.items0).type = .file))

/-- The loop of `pkg_jobs_check_conflicts`: `ret`, and `added`. -/
def appendConflicts : List Solved → Epkg × Nat × Jobs × W → Epkg × Nat × Jobs × W
  | [], state => state
  | ps :: rest, (ret, added, j, w) =>
      if checksFiles j ps then
        let (res, j, w) := pkgConflictsAppendPkg world (j.pkg ps.items0) j w
        if res ≠ .ok then appendConflicts rest (res, added, j, w)
        else appendConflicts rest (ret, added + 1, j, w)
      else appendConflicts rest (ret, added, j, w)

def pkgJobsCheckConflicts (fuel : Nat) (j : Jobs) (w : W) : Option (Epkg × Jobs × W) :=
  let (ret, added, j, w) := appendConflicts world j.jobs (.ok, 0, j, w)
  if 0 < added then do
    let (res, j, w) ← pkgConflictsIntegrityCheck world fuel j w
    if res ≠ .ok then pure (res, j, w) else pure (ret, j, w)
  else some (ret, j, w)

/-- `pkg_jobs_solve` on a run. -/
abbrev Solve (W : Type) := Run W → Option (Epkg × Stage × Run W)

/-- The `do` loop of `pkg_jobs_solve`. -/
def conflictLoop (fuel : Nat) (solve : Solve W) : Nat → Bool → Run W → Option (Run W)
  | 0, _, _ => none
  | turns + 1, hasConflicts, s => do
      let (rc, j, w) ← pkgJobsCheckConflicts world fuel { s.j with conflictsRegistered := 0 } s.world
      if rc = .conflict then do
        let (rc, stage, s) ← solve { s with j := { j with jobs := [], count := 0 }, world := w }
        let s := if rc ≠ .ok then { s with failed := s.failed ++ [stage] } else s
        if 0 < s.j.conflictsRegistered then conflictLoop fuel solve turns true s else pure s
      else if rc = .ok ∧ hasConflicts = false then pure { s with j := j, world := w }
      else if 0 < j.conflictsRegistered then
        conflictLoop fuel solve turns hasConflicts { s with j := j, world := w }
      else pure { s with j := j, world := w }

/-- Some chosen remote package has no files in the database yet. -/
def needsFetch (j : Jobs) (w : W) : Bool :=
  j.needFetch || j.jobs.any fun job =>
    decide ((j.pkg job.items0).type = .remote) && !world.filesLoaded (j.pkg job.items0) w

/-- `pkg_jobs_solve`: the return code, the part that set it, and the run. -/
def pkgJobsSolve : Nat → Solve W
  | 0, _ => none
  | fuel + 1, s => do
      let (ret, stage, j, w) ← runSolver world fuel s.j s.world
      if ret ≠ .ok then pure (ret, stage, { s with j := j, world := w })
      else do
        let w := world.applyReplacements j.univ.uidReplaces w
        let j := { j with needFetch := needsFetch world j w }
        let s := { s with j := j, world := w }
        if j.solved = 1 ∧ j.needFetch = false then do
          let s ← conflictLoop world fuel (pkgJobsSolve fuel) fuel false s
          pure (ret, stage, s)
        else pure (ret, stage, s)

end Solve

/-! ## What the parts leave alone -/

/-- The job list and the solve counter are the same. -/
def SameJobs (j j' : Jobs) : Prop := j'.jobs = j.jobs ∧ j'.solved = j.solved

namespace SameJobs

variable {j j' j'' : Jobs}

theorem refl (j : Jobs) : SameJobs j j := ⟨rfl, rfl⟩

theorem trans (first : SameJobs j j') (second : SameJobs j' j'') : SameJobs j j'' :=
  ⟨second.1.trans first.1, second.2.trans first.2⟩

theorem foldl {α : Type} {step : Jobs → α → Jobs} (keeps : ∀ j a, SameJobs j (step j a)) :
    ∀ (list : List α) (j : Jobs), SameJobs j (list.foldl step j) := by
  intro list
  induction list with
  | nil => exact refl
  | cons a rest ih => exact fun j => (keeps j a).trans (ih (step j a))

theorem foldlM {α : Type} {step : Jobs → α → Option Jobs}
    (keeps : ∀ j a j', step j a = some j' → SameJobs j j') :
    ∀ {list : List α} {j j' : Jobs}, list.foldlM step j = some j' → SameJobs j j' := by
  intro list
  induction list with
  | nil =>
      intro j j' ran
      cases ran
      exact refl j
  | cons a rest ih =>
      intro j j' ran
      obtain ⟨next, ranFirst, ranRest⟩ := Option.bind_eq_some_iff.mp ran
      exact (keeps j a next ranFirst).trans (ih ranRest)

end SameJobs

section Frames

variable {W : Type} {world : SolverEnv W} {j j' : Jobs} {w w' : W}

theorem registerLocalPairs_same (chain1 chain2 : List Addr) (j : Jobs) :
    SameJobs j (registerLocalPairs chain1 chain2 j) := by
  refine SameJobs.foldl (fun j cur1 => SameJobs.foldl (fun j cur2 => ?_) chain2 j) chain1 j
  unfold registerLocal
  split
  · exact ⟨rfl, rfl⟩
  · split <;> exact ⟨rfl, rfl⟩

theorem pkgConflictsAddMissing_same {env : Env} {fuel : Nat} {uid : Uid} {rc : Epkg}
    (ran : pkgConflictsAddMissing env fuel j uid = some (rc, j')) : SameJobs j j' := by
  unfold pkgConflictsAddMissing at ran
  split at ran
  · cases ran
    exact ⟨rfl, rfl⟩
  · obtain ⟨⟨rc', _, u⟩, _, result⟩ := Option.bind_eq_some_iff.mp ran
    cases result
    exact ⟨rfl, rfl⟩

theorem fromPkgdbLocal_same {env : Env} {fuel : Nat} {o1 o2 : Uid}
    (ran : pkgConflictsAddFromPkgdbLocal env fuel o1 o2 j = some j') : SameJobs j j' := by
  unfold pkgConflictsAddFromPkgdbLocal at ran
  split at ran
  · cases ran
    exact ⟨rfl, rfl⟩
  · obtain ⟨⟨rc, mid⟩, missing, result⟩ := Option.bind_eq_some_iff.mp ran
    dsimp only at result
    split at result <;> cases result
    · exact pkgConflictsAddMissing_same missing
    · exact (pkgConflictsAddMissing_same missing).trans (registerLocalPairs_same ..)
  · obtain ⟨⟨rc, mid⟩, missing, result⟩ := Option.bind_eq_some_iff.mp ran
    dsimp only at result
    split at result <;> cases result
    · exact pkgConflictsAddMissing_same missing
    · exact (pkgConflictsAddMissing_same missing).trans (registerLocalPairs_same ..)
  · split at ran <;> cases ran
    · exact .refl j
    · exact registerLocalPairs_same ..

theorem fromPkgdbRemote_same (o1 o2 : Uid) (j : Jobs) :
    SameJobs j (pkgConflictsAddFromPkgdbRemote o1 o2 j) := by
  unfold pkgConflictsAddFromPkgdbRemote
  split
  · split
    · exact .refl j
    · refine SameJobs.foldl (fun j cur1 => ?_) _ j
      unfold registerRemote
      split
      · split <;> exact ⟨rfl, rfl⟩
      · exact .refl j
  · exact ⟨rfl, rfl⟩

theorem appendConflicts_same : ∀ (list : List Solved) (ret : Epkg) (added : Nat) (j : Jobs) (w : W),
    SameJobs j (appendConflicts world list (ret, added, j, w)).2.2.1 := by
  intro list
  induction list with
  | nil => exact fun _ _ j _ => .refl j
  | cons ps rest ih =>
      intro ret added j w
      have appends : SameJobs j (pkgConflictsAppendPkg world (j.pkg ps.items0) j w).2.1 :=
        SameJobs.foldl (fun j (pair : Uid × Uid) => fromPkgdbRemote_same pair.1 pair.2 j) _ j
      rw [appendConflicts]
      split
      · dsimp only
        split
        · exact appends.trans (ih ..)
        · exact appends.trans (ih ..)
      · exact ih ..

theorem pkgJobsCheckConflicts_same {fuel : Nat} {rc : Epkg}
    (ran : pkgJobsCheckConflicts world fuel j w = some (rc, j', w')) : SameJobs j j' := by
  have appends := @appendConflicts_same _ world j.jobs .ok 0 j w
  rw [pkgJobsCheckConflicts] at ran
  generalize appendConflicts world j.jobs (.ok, 0, j, w) = state at ran appends
  obtain ⟨ret, added, mid, wMid⟩ := state
  dsimp only at ran appends
  split at ran
  · obtain ⟨⟨res, last, wLast⟩, checked, result⟩ := Option.bind_eq_some_iff.mp ran
    obtain ⟨registered, callbacks, same⟩ := Option.bind_eq_some_iff.mp checked
    have keeps := SameJobs.foldlM (fun _ _ _ ran => fromPkgdbLocal_same ran) callbacks
    cases same
    dsimp only at result
    split at result <;> cases result <;> exact appends.trans keeps
  · cases ran
    exact appends

/-- Without jobs there is nothing to check. -/
theorem pkgJobsCheckConflicts_nil (fuel : Nat) (noJobs : j.jobs = []) (w : W) :
    pkgJobsCheckConflicts world fuel j w = some (.ok, j, w) := by
  rw [pkgJobsCheckConflicts, noJobs]
  rfl

theorem dropRequest_same {install : Bool} {unit : Addr}
    (dropped : j.dropRequest install unit = some j') : SameJobs j j' := by
  unfold Jobs.dropRequest at dropped
  split at dropped <;> split at dropped <;> cases dropped <;> exact ⟨rfl, rfl⟩

theorem askToRemove_same {problem : SolveProblem} : ∀ {failed : List Int} {j j' : Jobs} {w w' : W}
    {rc : Epkg}, askToRemove world problem failed j w = some (rc, j', w') → SameJobs j j' := by
  intro failed
  induction failed with
  | nil =>
      intro j j' w w' rc ran
      cases ran
      exact .refl j
  | cons lit rest ih =>
      intro j j' w w' rc ran
      rw [askToRemove] at ran
      obtain ⟨unit, _, ran⟩ := Option.bind_eq_some_iff.mp ran
      dsimp only at ran
      split at ran
      · cases ran
        exact .refl j
      · cases ran
        exact ⟨rfl, rfl⟩
      · next dropped => exact (dropRequest_same dropped).trans (ih ran)

theorem pkgSolveSatProblem_same {problem problem' : SolveProblem} {rc : Epkg}
    (ran : pkgSolveSatProblem world problem j w = some (rc, problem', j', w')) :
    SameJobs j j' := by
  unfold pkgSolveSatProblem at ran
  split at ran
  · cases ran
    exact .refl j
  · obtain ⟨⟨rc', mid, wMid⟩, asked, result⟩ := Option.bind_eq_some_iff.mp ran
    have keeps : SameJobs _ mid := askToRemove_same asked
    cases result
    exact keeps

theorem processUpgradeChain_same {versionCmp : String → String → Int} {head : Addr}
    (ran : processUpgradeChain versionCmp j head = some j') : SameJobs j j' := by
  unfold processUpgradeChain at ran
  dsimp only at ran
  split at ran
  · split at ran
    · cases ran
      exact ⟨rfl, rfl⟩
    · split at ran
      · obtain ⟨selected, _, result⟩ := Option.map_eq_some_iff.mp ran
        cases result
        exact ⟨rfl, rfl⟩
      · cases ran
        exact .refl j
  · split at ran
    · obtain ⟨selected, _, result⟩ := Option.map_eq_some_iff.mp ran
      cases result
      exact ⟨rfl, rfl⟩
    · cases ran
      exact .refl j

theorem pkgSolveInsertResJob_solved (j : Jobs) (problem : SolveProblem) (var : Nat) :
    (pkgSolveInsertResJob j problem var).solved = j.solved := by
  have deletes : ∀ (seen : SeenVars) (vars : List Nat) (j : Jobs),
      (vars.foldl (insertDelete problem seen) j).solved = j.solved := by
    intro seen vars
    induction vars with
    | nil => exact fun _ => rfl
    | cons curVar rest ih =>
        intro j
        rw [List.foldl_cons, ih]
        unfold insertDelete
        split
        · split <;> rfl
        · rfl
  unfold pkgSolveInsertResJob
  dsimp only
  split
  · rfl
  · split
    · rw [deletes]
      split <;> rfl
    · rfl

theorem pkgSolveSatToJobs_solved (j : Jobs) (problem : SolveProblem) :
    (pkgSolveSatToJobs j problem).solved = j.solved := by
  unfold pkgSolveSatToJobs
  generalize problem.variablesByUid = entries
  induction entries generalizing j with
  | nil => rfl
  | cons entry rest ih => rw [List.foldl_cons, ih, pkgSolveInsertResJob_solved]

theorem externalSolver_solved {fuel : Nat} {problem : SolveProblem} {ret : Epkg}
    (ran : externalSolver world fuel problem j w = some (ret, j', w')) :
    j'.solved = j.solved := by
  unfold externalSolver at ran
  dsimp only at ran
  split at ran
  · cases ran
    rfl
  · obtain ⟨text, _, ran⟩ := Option.bind_eq_some_iff.mp ran
    split at ran <;> cases ran
    · exact pkgSolveSatToJobs_solved ..
    · rfl

end Frames

/-! ## Failed invocations -/

/-- What an invocation of the solver leaves of the counter: it is not zero
unless the built-in solver failed, and then the job list is as it was. -/
structure Invoked (j j' : Jobs) (ret : Epkg) (stage : Stage) : Prop where
  counted : ret = .ok → 1 ≤ j'.solved
  kept : ret ≠ .ok → stage ≠ .builtin → 1 ≤ j.solved → 1 ≤ j'.solved
  reset : ret ≠ .ok → stage = .builtin → j'.solved = 0 ∧ j'.jobs = j.jobs

section Invocations

variable {W : Type} {world : SolverEnv W}

theorem solveAgain_invoked : ∀ {fuel : Nat} {j j' : Jobs} {w w' : W} {ret : Epkg} {stage : Stage},
    solveAgain world fuel j w = some (ret, stage, j', w') → 1 ≤ j.solved →
      Invoked j j' ret stage := by
  intro fuel
  induction fuel with
  | zero =>
      intro j j' w w' ret stage ran
      cases ran
  | succ fuel ih =>
      intro j j' w w' ret stage ran counted
      rw [solveAgain] at ran
      obtain ⟨chained, chains, ran⟩ := Option.bind_eq_some_iff.mp ran
      have sameChained : SameJobs j chained :=
        SameJobs.foldlM (fun _ _ _ ran => processUpgradeChain_same ran) chains
      dsimp only at ran
      split at ran
      · cases ran
        exact ⟨fun ok => Epkg.noConfusion ok, fun _ other => absurd rfl other,
          fun _ _ => ⟨rfl, sameChained.1⟩⟩
      · split at ran
        · obtain ⟨⟨ret', mid, wMid⟩, external, result⟩ := Option.bind_eq_some_iff.mp ran
          have solvedEq := (externalSolver_solved external).trans sameChained.2
          cases result
          exact ⟨fun _ => solvedEq ▸ counted, fun _ _ _ => solvedEq ▸ counted,
            fun _ builtin => by cases builtin⟩
        · obtain ⟨⟨ret', problem', mid, wMid⟩, solver, result⟩ := Option.bind_eq_some_iff.mp ran
          have same := sameChained.trans (pkgSolveSatProblem_same solver)
          dsimp only at result
          split at result
          · cases result
            exact ⟨fun ok => Epkg.noConfusion ok, fun _ other => absurd rfl other,
              fun _ _ => ⟨rfl, same.1⟩⟩
          · obtain ⟨countedAgain, keptAgain, resetAgain⟩ := ih result (same.2 ▸ counted)
            refine ⟨countedAgain, fun bad other _ => keptAgain bad other (same.2 ▸ counted),
              fun bad builtin => ?_⟩
            obtain ⟨zero, jobsEq⟩ := resetAgain bad builtin
            exact ⟨zero, jobsEq.trans same.1⟩
          · cases result
            refine ⟨fun _ => ?_, fun bad => absurd rfl bad, fun bad => absurd rfl bad⟩
            rw [pkgSolveSatToJobs_solved, same.2]
            exact counted

theorem countSolved_pos (j : Jobs) : 1 ≤ j.countSolved.solved := by
  unfold Jobs.countSolved
  split
  · exact Nat.le_refl 1
  · exact Nat.le_refl 1
  · exact Nat.succ_pos _
  · exact Nat.succ_pos _
  · exact Nat.succ_pos _

theorem countSolved_jobs (j : Jobs) : j.countSolved.jobs = j.jobs := by
  unfold Jobs.countSolved
  split <;> rfl

theorem runSolver_invoked {fuel : Nat} {j j' : Jobs} {w w' : W} {ret : Epkg} {stage : Stage}
    (ran : runSolver world fuel j w = some (ret, stage, j', w')) : Invoked j j' ret stage := by
  rw [runSolver] at ran
  dsimp only at ran
  split at ran
  · next bad =>
      cases ran
      exact ⟨fun ok => absurd ok bad, fun _ _ counted => counted, fun _ builtin => by cases builtin⟩
  · generalize requested : (j.withRequest (world.request j w).2.1) = mid at ran
    have jobsEq : mid.countSolved.jobs = j.jobs := by
      rw [countSolved_jobs, ← requested]
      rfl
    have counted := countSolved_pos mid
    split at ran
    · rw [cudfSolve] at ran
      dsimp only at ran
      split at ran <;> cases ran <;>
        exact ⟨fun _ => counted, fun _ _ _ => counted, fun _ builtin => by cases builtin⟩
    · obtain ⟨countedSolve, kept, reset⟩ := solveAgain_invoked ran counted
      refine ⟨countedSolve, fun bad other _ => kept bad other counted, fun bad builtin => ?_⟩
      obtain ⟨zero, same⟩ := reset bad builtin
      exact ⟨zero, same.trans jobsEq⟩

/-- A run of `pkg_jobs_solve`.  Its conflict loop appends to the failed
invocations; once the built-in solver has failed there, the loop has ended with
no jobs and the counter zero, and until then the counter is not zero. -/
structure Resolved (s s' : Run W) (ret : Epkg) (stage : Stage) : Prop where
  failed : ∃ new, s'.failed = s.failed ++ new ∧
    (.builtin ∈ new → ret = .ok ∧ s'.j.jobs = [] ∧ s'.j.solved = 0) ∧
    (.builtin ∉ new → ret = .ok → 1 ≤ s'.j.solved) ∧ (ret ≠ .ok → new = [])
  kept : ret ≠ .ok → stage ≠ .builtin → 1 ≤ s.j.solved → 1 ≤ s'.j.solved
  reset : ret ≠ .ok → stage = .builtin → s'.j.solved = 0 ∧ s'.j.jobs = s.j.jobs

/-- What the conflict loop does to a run whose counter is not zero. -/
def LoopResolves (s s' : Run W) : Prop :=
  ∃ new, s'.failed = s.failed ++ new ∧
    (.builtin ∈ new → s'.j.jobs = [] ∧ s'.j.solved = 0) ∧ (.builtin ∉ new → 1 ≤ s'.j.solved)

/-- Without jobs the loop ends at once. -/
theorem conflictLoop_nil {fuel turns : Nat} {solve : Solve W} {hasConflicts : Bool} {s s' : Run W}
    (noJobs : s.j.jobs = [])
    (ran : conflictLoop world fuel solve turns hasConflicts s = some s') :
    s'.failed = s.failed ∧ s'.j.jobs = [] ∧ s'.j.solved = s.j.solved := by
  cases turns with
  | zero => cases ran
  | succ turns =>
      rw [conflictLoop, pkgJobsCheckConflicts_nil fuel (by exact noJobs)] at ran
      cases hasConflicts <;> cases ran <;> exact ⟨rfl, noJobs, rfl⟩

/-- The turn that calls the solver again. -/
theorem conflictLoop_resolve {fuel turns : Nat} {solve : Solve W} {s s₁ s' : Run W} {ret : Epkg}
    {stage : Stage} (counted : 1 ≤ s.j.solved) (noJobs : s.j.jobs = [])
    (invoked : Resolved s s₁ ret stage)
    (later : ∀ s s' : Run W, 1 ≤ s.j.solved →
      conflictLoop world fuel solve turns true s = some s' → LoopResolves s s')
    (logged : Run W) (logEq : logged = if ret ≠ .ok then
      { s₁ with failed := s₁.failed ++ [stage] } else s₁)
    (ran : (if 0 < logged.j.conflictsRegistered then
      conflictLoop world fuel solve turns true logged else some logged) = some s') :
    LoopResolves s s' := by
  obtain ⟨new, failedEq, broken, sound, none⟩ := invoked.failed
  have loggedJ : logged.j = s₁.j := by
    rw [logEq]
    split <;> rfl
  -- The failed invocations so far, and what they say about the run.
  have soFar : ∃ log, logged.failed = s.failed ++ log ∧
      (.builtin ∈ log → logged.j.jobs = [] ∧ logged.j.solved = 0) ∧
      (.builtin ∉ log → 1 ≤ logged.j.solved) := by
    rw [loggedJ]
    by_cases ok : ret = .ok
    · refine ⟨new, by rw [logEq, if_neg (not_not.mpr ok), failedEq], fun builtin => ?_,
        fun clean => sound clean ok⟩
      exact (broken builtin).2
    · have noNew := none ok
      subst noNew
      refine ⟨[stage], by rw [logEq, if_pos ok, failedEq, List.append_nil], fun builtin => ?_,
        fun clean => invoked.kept ok (fun same => clean (by simp [same])) counted⟩
      have isBuiltin : stage = .builtin := by simpa [eq_comm] using builtin
      obtain ⟨zero, jobsEq⟩ := invoked.reset ok isBuiltin
      exact ⟨jobsEq.trans noJobs, zero⟩
  obtain ⟨log, loggedEq, brokenLog, soundLog⟩ := soFar
  by_cases builtin : Stage.builtin ∈ log
  · obtain ⟨empty, zero⟩ := brokenLog builtin
    refine ⟨log, ?_, fun _ => ?_, fun clean => absurd builtin clean⟩
    · split at ran
      · rw [(conflictLoop_nil empty ran).1, loggedEq]
      · cases ran
        exact loggedEq
    · split at ran
      · obtain ⟨_, still, same⟩ := conflictLoop_nil empty ran
        exact ⟨still, same.trans zero⟩
      · cases ran
        exact ⟨empty, zero⟩
  · have countedLog := soundLog builtin
    split at ran
    · obtain ⟨rest, restEq, brokenRest, soundRest⟩ := later logged s' countedLog ran
      refine ⟨log ++ rest, by rw [restEq, loggedEq, List.append_assoc], fun member => ?_,
        fun clean => soundRest fun inRest => clean (List.mem_append_right _ inRest)⟩
      exact brokenRest ((List.mem_append.mp member).resolve_left builtin)
    · cases ran
      exact ⟨log, loggedEq, brokenLog, soundLog⟩

theorem conflictLoop_resolves {fuel : Nat} {solve : Solve W}
    (solves : ∀ s s' ret stage, solve s = some (ret, stage, s') → Resolved s s' ret stage) :
    ∀ {turns : Nat} {hasConflicts : Bool} {s s' : Run W}, 1 ≤ s.j.solved →
      conflictLoop world fuel solve turns hasConflicts s = some s' → LoopResolves s s' := by
  intro turns
  induction turns with
  | zero =>
      intro hasConflicts s s' _ ran
      cases ran
  | succ turns ih =>
      intro hasConflicts s s' counted ran
      rw [conflictLoop] at ran
      obtain ⟨⟨rc, j, w⟩, checked, ran⟩ := Option.bind_eq_some_iff.mp ran
      have same : SameJobs { s.j with conflictsRegistered := 0 } j :=
        pkgJobsCheckConflicts_same checked
      have countedJ : 1 ≤ j.solved := same.2 ▸ counted
      dsimp only at ran
      split at ran
      · obtain ⟨⟨ret, stage, s₁⟩, solved, ran⟩ := Option.bind_eq_some_iff.mp ran
        exact conflictLoop_resolve (s := { s with j := { j with jobs := [], count := 0 }, world := w })
          countedJ rfl (solves _ _ _ _ solved) (fun s s' => ih) _ rfl ran
      · split at ran
        · cases ran
          exact ⟨[], (List.append_nil _).symm, by simp, fun _ => countedJ⟩
        · split at ran
          · exact ih (s := { s with j := j, world := w }) countedJ ran
          · cases ran
            exact ⟨[], (List.append_nil _).symm, by simp, fun _ => countedJ⟩

theorem pkgJobsSolve_resolved : ∀ (fuel : Nat) (s s' : Run W) (ret : Epkg) (stage : Stage),
    pkgJobsSolve world fuel s = some (ret, stage, s') → Resolved s s' ret stage := by
  intro fuel
  induction fuel with
  | zero =>
      intro s s' ret stage ran
      cases ran
  | succ fuel ih =>
      intro s s' ret stage ran
      rw [pkgJobsSolve] at ran
      obtain ⟨⟨ret', stage', j, w⟩, solver, ran⟩ := Option.bind_eq_some_iff.mp ran
      obtain ⟨counted, kept, reset⟩ := runSolver_invoked solver
      dsimp only at ran
      split at ran
      · next bad =>
          cases ran
          exact ⟨⟨[], (List.append_nil _).symm, by simp, fun _ ok => absurd ok bad, fun _ => rfl⟩,
            kept, reset⟩
      · next ok =>
          have ok := not_not.mp ok
          split at ran
          · obtain ⟨s₂, looped, result⟩ := Option.bind_eq_some_iff.mp ran
            obtain ⟨new, failedEq, broken, sound⟩ := conflictLoop_resolves ih (counted ok) looped
            cases result
            exact ⟨⟨new, failedEq, fun builtin => ⟨ok, broken builtin⟩, fun clean _ => sound clean,
              fun bad => absurd ok bad⟩, fun bad => absurd ok bad, fun bad => absurd ok bad⟩
          · cases ran
            exact ⟨⟨[], (List.append_nil _).symm, by simp, fun _ _ => counted ok,
              fun bad => absurd ok bad⟩, fun bad => absurd ok bad, fun bad => absurd ok bad⟩

/-- A run whose conflict loop saw an invocation fail reports success without
jobs exactly when the built-in solver was what failed. -/
theorem failedResolve_reported_iff {fuel : Nat} {s s' : Run W} {ret : Epkg} {stage : Stage}
    (fresh : s.failed = []) (ran : pkgJobsSolve world fuel s = some (ret, stage, s')) :
    (s'.failed ≠ [] → ¬ (ret = .ok ∧ s'.j.jobs = [] ∧ s'.j.solved = 0)) ↔
      .builtin ∉ s'.failed := by
  obtain ⟨new, failedEq, broken, sound, _⟩ := (pkgJobsSolve_resolved fuel s s' ret stage ran).failed
  rw [fresh, List.nil_append] at failedEq
  subst failedEq
  constructor
  · intro reported builtin
    exact reported (List.ne_nil_of_mem builtin) (broken builtin)
  · rintro clean _ ⟨ok, _, zero⟩
    have := sound clean ok
    omega

end Invocations

/-! ## Two packages with a file in common -/

/-- Whether a literal as PicoSAT writes it is true. -/
def literalHolds (σ : Nat → Bool) (lit : Int) : Bool :=
  if 0 < lit then σ (lit.toNat - 1) else !σ ((-lit).toNat - 1)

/-- PicoSAT by trying all assignments; all assumptions count as failed. -/
def bruteForce (problem : SolveProblem) : PicosatResult :=
  let models := (List.range problem.nvars).foldr
    (fun var models => models.flatMap fun σ => [σ, Function.update σ var true]) [fun _ => false]
  let meets (σ : Nat → Bool) : Bool :=
    (picosatClauses problem).all (fun clause => clause.any (literalHolds σ)) &&
      problem.assumptions.all (literalHolds σ)
  match models.find? meets, problem.assumptions with
  | some σ, _ => .satisfiable σ
  | none, [] => .unsatisfiable 0 []
  | none, failed :: others => .unsatisfiable failed others

/-- Two requested packages that install the same file.  The world counts the
requests; `second` is the code of the later ones. -/
def clashingEnv (second : Epkg) : SolverEnv Nat where
  env := emptyEnv
  request j w :=
    if w = 0 then
      (.ok, { univ := JobsUniverse.ofPackages Pkg.digest
                [{ type := .remote, uid := "left", digest := some "d1" },
                 { type := .remote, uid := "right", digest := some "d2" }]
              requestAdd := [0, 1]
              requestDelete := []
              errors := j.errors }, w + 1)
    else
      (second, { univ := j.univ
                 requestAdd := j.requestAdd
                 requestDelete := j.requestDelete
                 errors := j.errors }, w + 1)
  spawn w := (false, w)
  cudf _ w := (.fatal, [], w)
  satOutput _ w := (none, w)
  picosat problem _ := bruteForce problem
  queryYesno _ w := (false, w)
  applyReplacements _ w := w
  filesLoaded _ _ := true
  integrityAppend p w :=
    if p.uid = "right" then (.conflict, [("right", "left")], w) else (.ok, [], w)
  integrityCheck w := (.ok, [], w)

def freshRun : Run Nat := { j := { univ := {} }, world := 0 }

/-- The second request fails, so the job stays marked as solved. -/
theorem clashing_requestFails : ∃ s',
    pkgJobsSolve (clashingEnv .fatal) 4 freshRun = some (.ok, .builtin, s') ∧
      s'.failed ≠ [] ∧ ¬ (s'.j.jobs = [] ∧ s'.j.solved = 0) := by
  have ran : ∃ s', pkgJobsSolve (clashingEnv .fatal) 4 freshRun =
      some (.ok, .builtin, s') ∧ s'.failed = [.request] := ⟨_, rfl, by decide⟩
  obtain ⟨s', ran, failed⟩ := ran
  have nonempty : s'.failed ≠ [] := by simp [failed]
  refine ⟨s', ran, nonempty, fun empty => ?_⟩
  exact (failedResolve_reported_iff rfl ran).mpr (by simp [failed]) nonempty ⟨rfl, empty⟩

/-- The second solver run fails, and the job is reported as solved with nothing
to do. -/
theorem clashing_solverFails : ∃ s',
    pkgJobsSolve (clashingEnv .ok) 4 freshRun = some (.ok, .builtin, s') ∧
      s'.failed ≠ [] ∧ s'.j.jobs = [] ∧ s'.j.solved = 0 :=
  ⟨_, rfl, by decide, by decide, by decide⟩

end Pkgng
