import Pkgng.Jobs.LockedPackages
import Pkgng.Jobs.Resolve

/-!
# Requests that cannot be met

`pkg_solve_sat_problem` takes each failed assumption for an index into the variables and
asks whether to drop the request behind it.  A job either installs or deletes, and deleting
alone never fails; so every failed assumption belongs to an install request, and each turn
of the loop of `pkg_jobs_solve` has fewer requests than the one before.
-/

set_option autoImplicit false

namespace Pkgng

open Lib

/-! ## What building a problem preserves -/

section Invariant

variable {j : Jobs} {invariant : SolveProblem → Prop}
  (rule : ∀ (problem : SolveProblem) (added : SolveRule), invariant problem →
    invariant (problem.addRule added))

include rule

theorem foldl_addRule {α : Type} {f : SolveProblem → α → SolveProblem}
    (step : ∀ problem x, f problem x = problem ∨ ∃ added, f problem x = problem.addRule added)
    (list : List α) {problem : SolveProblem} (holds : invariant problem) :
    invariant (list.foldl f problem) := by
  induction list generalizing problem with
  | nil => exact holds
  | cons x rest ih =>
      rw [List.foldl_cons]
      apply ih
      rcases step problem x with same | ⟨added, isAdded⟩
      · rw [same]
        exact holds
      · rw [isAdded]
        exact rule problem added holds

theorem addDependRules_invariant (pkg : Pkg) (var : Nat) {problem : SolveProblem}
    (holds : invariant problem) : invariant (addDependRules problem pkg var) := by
  refine foldl_addRule rule (fun other dep => ?_) pkg.deps holds
  unfold pkgSolveAddDependRule
  split
  · exact Or.inl rfl
  · exact Or.inr ⟨_, rfl⟩

theorem addConflictRules_invariant (u : JobsUniverse) (pkg : Pkg) (var : Nat)
    {problem : SolveProblem} (holds : invariant problem) :
    invariant (addConflictRules u problem pkg var) := by
  have conflict : ∀ (conflicts : List Conflict) {other : SolveProblem}, invariant other →
      invariant (conflicts.foldl
        (fun other conflict => (pkgSolveAddConflictRule u other pkg var conflict).2) other) := by
    intro conflicts
    induction conflicts with
    | nil => exact fun holds => holds
    | cons c rest ih =>
        intro other holds
        rw [List.foldl_cons]
        apply ih
        unfold pkgSolveAddConflictRule
        split
        · exact holds
        · refine foldl_addRule rule (fun another curvar => ?_) _ holds
          split
          · exact Or.inl rfl
          · exact Or.inr ⟨_, rfl⟩
  exact conflict pkg.conflicts holds

theorem addRequireRules_invariant (u : JobsUniverse) (pkg : Pkg) (var : Nat)
    {problem next : SolveProblem} (holds : invariant problem)
    (runs : addRequireRules u problem pkg var = some next) : invariant next := by
  unfold addRequireRules at runs
  split at runs
  · cases runs
    exact holds
  · have requires : ∀ (shlibs : List String) {other : SolveProblem}, invariant other →
        shlibs.foldlM (fun problem shlib =>
          Prod.snd <$> pkgSolveAddRequireRule u problem var shlib) other = some next →
            invariant next := by
      intro shlibs
      induction shlibs with
      | nil =>
          intro other holds ran
          cases ran
          exact holds
      | cons shlib rest ih =>
          intro other holds ran
          rw [List.foldlM_cons, Option.bind_eq_bind, Option.bind_eq_some_iff] at ran
          obtain ⟨mid, first, later⟩ := ran
          refine ih ?_ later
          obtain ⟨⟨code, last⟩, one, rfl⟩ := Option.map_eq_some_iff.mp first
          unfold pkgSolveAddRequireRule at one
          split at one
          · cases one
            exact holds
          · simp only [Option.bind_eq_bind, Option.bind_eq_some_iff] at one
            obtain ⟨⟨added, cnt⟩, _, one⟩ := one
            dsimp only at one
            split at one
            · cases one
              exact rule other added holds
            · cases one
              exact holds
    exact requires pkg.shlibsRequired holds runs

variable (unary : ∀ (problem : SolveProblem) (var : Nat) (item : Addr),
  problem.unit var = some item → invariant problem →
    (item ∈ j.requestAdd → invariant (pkgSolveAddUnaryRule problem var 1)) ∧
      (item ∈ j.requestDelete → invariant (pkgSolveAddUnaryRule problem var (-1))))

include unary

omit rule in
theorem addRequestRules_invariant (var : Nat) {problem : SolveProblem}
    (holds : invariant problem) : invariant (addRequestRules j problem var) := by
  unfold addRequestRules
  cases isUnit : problem.unit var with
  | none => simpa using holds
  | some item =>
      have installs : invariant (if item ∈ j.requestAdd then
          pkgSolveAddUnaryRule problem var 1 else problem) := by
        split
        · next add => exact (unary problem var item isUnit holds).1 add
        · exact holds
      have sameUnit : (if item ∈ j.requestAdd then
          pkgSolveAddUnaryRule problem var 1 else problem).unit var = some item := by
        split
        · exact isUnit
        · exact isUnit
      simp only [Option.any_some, decide_eq_true_eq]
      split
      · next delete => exact (unary _ var item sameUnit installs).2 delete
      · exact installs

theorem processVariable_invariant {problem next : SolveProblem} {chainAdded chainAdded' : Bool}
    {var : Nat} (holds : invariant problem)
    (runs : processVariable j (problem, chainAdded) var = some (next, chainAdded')) :
    invariant next := by
  simp only [processVariable, Option.bind_eq_bind, Option.bind_eq_some_iff] at runs
  obtain ⟨required, requires, last⟩ := runs
  have rules := addRequireRules_invariant rule j.univ _ var
    (addConflictRules_invariant rule j.univ _ var
      (addDependRules_invariant rule _ var holds)) requires
  have requests := addRequestRules_invariant unary var rules
  split at last
  · cases last
    exact foldl_addRule rule (fun _ _ => Or.inr ⟨_, rfl⟩) _ requests
  · cases last
    exact requests

/-- What adding a rule and assuming a request preserve holds of the problem built. -/
theorem pkgSolveJobsToSat_invariant {problem : SolveProblem}
    (initially : ∀ sv n, pkgSolveAddVariables j.univ = some (sv, n) →
      invariant { sv with nvars := j.univ.nitems })
    (built : pkgSolveJobsToSat j = some problem) : invariant problem := by
  simp only [pkgSolveJobsToSat, Option.bind_eq_bind, Option.bind_eq_some_iff] at built
  obtain ⟨⟨sv, n⟩, filled, built⟩ := built
  have vars : ∀ (vars : List Nat) {other last : SolveProblem} {chainAdded chainAdded' : Bool},
      invariant other →
        vars.foldlM (processVariable j) (other, chainAdded) = some (last, chainAdded') →
          invariant last := by
    intro vars
    induction vars with
    | nil =>
        intro other last _ _ holds ran
        cases ran
        exact holds
    | cons var rest ih =>
        intro other last _ _ holds ran
        rw [List.foldlM_cons, Option.bind_eq_bind, Option.bind_eq_some_iff] at ran
        obtain ⟨⟨mid, _⟩, first, later⟩ := ran
        exact ih (processVariable_invariant rule unary holds first) later
  have entries : ∀ (entries : List (Uid × Addr)) {other last : SolveProblem}, invariant other →
      entries.foldlM (fun problem entry => do
        let var ← HashTable.find (j.pkg entry.2).uid problem.variablesByUid
        pkgSolveProcessUniverseVariable j problem var) other = some last → invariant last := by
    intro entries
    induction entries with
    | nil =>
        intro other last holds ran
        cases ran
        exact holds
    | cons entry rest ih =>
        intro other last holds ran
        rw [List.foldlM_cons, Option.bind_eq_bind, Option.bind_eq_some_iff] at ran
        obtain ⟨mid, first, later⟩ := ran
        refine ih ?_ later
        simp only [Option.bind_eq_bind, Option.bind_eq_some_iff] at first
        obtain ⟨var, _, first⟩ := first
        obtain ⟨⟨last, _⟩, loop, rfl⟩ := Option.map_eq_some_iff.mp first
        exact vars _ holds loop
  exact entries j.univ.items (initially sv n filled) built

end Invariant

/-! ## The assumptions -/

/-- The table that `pkg_jobs_add_req` does not fill for the type of the job is empty. -/
def Jobs.RequestsOfType (j : Jobs) : Prop :=
  if j.type = .deinstall ∨ j.type = .autoremove then j.requestAdd = [] else j.requestDelete = []

theorem Jobs.RequestsOfType.addReq {j j' : Jobs} {item : Option Addr}
    (requests : j.RequestsOfType) (ran : pkgJobsAddReq j item = some j') :
    j'.RequestsOfType := by
  obtain ⟨unit, _, added⟩ := Option.bind_eq_some_iff.mp ran
  unfold RequestsOfType at *
  split at added
  · next deletes =>
      rw [if_pos deletes] at requests
      split at added
      · split at added
        · cases added
          rw [if_pos deletes]
          exact requests
        · cases added
          exact (if_pos deletes).mpr requests
      · cases added
  · next installs =>
      rw [if_neg installs] at requests
      split at added
      · cases added
      · split at added
        · cases added
          rw [if_neg installs]
          exact requests
        · cases added
          exact (if_neg installs).mpr requests

/-- What `picosat_failed_assumptions` documents of its answer: literals of the assumptions,
in their order, that the clauses contradict. -/
structure FailedAssumptions (problem : SolveProblem) (failed : List Int) : Prop where
  passed : failed.Sublist problem.assumptions
  contradicted : ¬∃ σ, problem.Satisfied σ ∧
    ∀ literal ∈ failed, σ (literal.natAbs - 1) = decide (0 < literal)

section Assumptions

variable {j : Jobs} {problem : SolveProblem}

/-- The clauses without assumptions are satisfied by choosing nothing. -/
theorem satisfied_nothing (ready : j.univ.Solvable)
    (built : pkgSolveJobsToSat j = some problem) : problem.Satisfied fun _ => false := by
  obtain ⟨problem', built', _, meaning⟩ := pkgSolveJobsToSat_spec ready
  rw [built] at built'
  cases built'
  rw [meaning]
  refine ⟨?_, ?_, ?_, ?_⟩
  · intro item _ chosen
    cases chosen
  · intro item _ chosen
    cases chosen
  · intro item _ chosen
    cases chosen
  · intro entry _ chosen
    cases chosen

theorem failed_ne_nil (ready : j.univ.Solvable) (built : pkgSolveJobsToSat j = some problem)
    {failed : List Int} (answer : FailedAssumptions problem failed) : failed ≠ [] := by
  rintro rfl
  exact answer.contradicted ⟨_, satisfied_nothing ready built, by simp⟩

/-- Some failed assumption is an install request: choosing nothing deletes everything. -/
theorem exists_failed_pos (ready : j.univ.Solvable)
    (built : pkgSolveJobsToSat j = some problem) {failed : List Int}
    (answer : FailedAssumptions problem failed) : ∃ literal ∈ failed, 0 < literal := by
  by_contra noInstall
  refine answer.contradicted ⟨_, satisfied_nothing ready built, ?_⟩
  intro literal member
  have notPos : ¬0 < literal := fun pos => noInstall ⟨literal, member, pos⟩
  rw [decide_eq_false notPos]

/-- The literals assumed, by the request they stand for. -/
theorem mem_assumptions (ready : j.univ.Solvable)
    (built : pkgSolveJobsToSat j = some problem) {literal : Int}
    (member : literal ∈ problem.assumptions) : ∃ item ∈ j.univ.units,
      (item ∈ j.requestAdd ∧ literal = (j.univ.varOf item + 1 : Nat)) ∨
        (item ∈ j.requestDelete ∧ literal = -(j.univ.varOf item + 1 : Nat)) := by
  obtain ⟨problem', built', mirrors, _⟩ := pkgSolveJobsToSat_spec ready
  rw [built] at built'
  cases built'
  rw [pkgSolveJobsToSat_assumptions ready built] at member
  obtain ⟨item, reachable, isLiteral⟩ := List.mem_flatMap.mp member
  refine ⟨item, reachable, ?_⟩
  have order := mirrors.orders (j.univ.varOf item) (List.idxOf_lt_length_of_mem reachable)
  rw [requestLiterals, mirrors.unit_varOf reachable, order, List.mem_append] at isLiteral
  rcases isLiteral with installs | deletes
  · split at installs
    · next add => exact Or.inl ⟨by simpa using add, by simpa using installs⟩
    · cases installs
  · split at deletes
    · next delete => exact Or.inr ⟨by simpa using delete, by simpa using deletes⟩
    · cases deletes

/-- A job without delete requests marks every variable it assumes as one to install. -/
theorem toInstall_of_assumed (ready : j.univ.Solvable) (noDelete : j.requestDelete = [])
    (built : pkgSolveJobsToSat j = some problem) {literal : Int}
    (member : literal ∈ problem.assumptions) :
    problem.toInstall (literal.natAbs - 1) = true := by
  obtain ⟨sv, filled, mirrors, fresh⟩ := pkgSolveAddVariables_spec ready.toChained ready.room
  have marked : problem.toSolveVariables = sv ∧
      ∀ literal ∈ problem.assumptions, problem.toInstall (literal.natAbs - 1) = true := by
    refine @pkgSolveJobsToSat_invariant j
      (fun other => other.toSolveVariables = sv ∧
        ∀ literal ∈ other.assumptions, other.toInstall (literal.natAbs - 1) = true)
      (fun _ _ holds => holds) ?_ problem ?_ built
    · rintro other var item isUnit ⟨sameVars, installs⟩
      refine ⟨fun _ => ⟨sameVars, ?_⟩, fun delete => ?_⟩
      · have inUnits : var < j.univ.units.length := by
          rw [sameVars, mirrors.units] at isUnit
          exact (List.getElem?_eq_some_iff.mp isUnit).1
        have order : other.order var = var + 1 := by
          rw [sameVars]
          exact mirrors.orders var inUnits
        intro literal member
        simp only [pkgSolveAddUnaryRule, List.mem_append, List.mem_singleton] at member ⊢
        rcases member with before | rfl
        · rw [Function.update_apply]
          split
          · rfl
          · exact installs literal before
        · have here : (((other.order var : Nat) : Int) * 1).natAbs - 1 = var := by
            rw [order]
            omega
          rw [here, Function.update_self]
          rfl
      · rw [noDelete] at delete
        cases delete
    · intro sv' n filled'
      rw [filled] at filled'
      cases filled'
      exact ⟨rfl, by simp⟩
  exact marked.2 literal member

/-- The literal assumed for an install request. -/
def JobsUniverse.literalOf (u : JobsUniverse) (item : Addr) : Int := (u.varOf item + 1 : Nat)

/-- Without delete requests the assumptions are the requested items of the universe. -/
theorem assumptions_eq (ready : j.univ.Solvable) (noDelete : j.requestDelete = [])
    (built : pkgSolveJobsToSat j = some problem) :
    problem.assumptions =
      (j.univ.units.filter fun item => item ∈ j.requestAdd).map j.univ.literalOf := by
  obtain ⟨problem', built', mirrors, _⟩ := pkgSolveJobsToSat_spec ready
  rw [built] at built'
  cases built'
  have literals : ∀ item ∈ j.univ.units,
      requestLiterals j problem.toSolveVariables (j.univ.varOf item) =
        if item ∈ j.requestAdd then [j.univ.literalOf item] else [] := by
    intro item reachable
    have order := mirrors.orders (j.univ.varOf item) (List.idxOf_lt_length_of_mem reachable)
    rw [requestLiterals, mirrors.unit_varOf reachable, order, noDelete]
    simp [JobsUniverse.literalOf]
  rw [pkgSolveJobsToSat_assumptions ready built]
  generalize j.univ.units = units at literals
  induction units with
  | nil => rfl
  | cons item rest ih =>
      rw [List.flatMap_cons, literals item (by simp), List.filter_cons,
        ih fun other member => literals other (List.mem_cons_of_mem _ member)]
      by_cases add : item ∈ j.requestAdd
      · simp [add]
      · simp [add]

/-- The items behind the failed assumptions of a job without delete requests. -/
theorem exists_failed_items (ready : j.univ.Solvable) (noDelete : j.requestDelete = [])
    (built : pkgSolveJobsToSat j = some problem) {failed : List Int}
    (answer : FailedAssumptions problem failed) :
    ∃ items : List Addr, failed = items.map j.univ.literalOf ∧ items.Nodup ∧
      ∀ item ∈ items, item ∈ j.univ.units ∧ item ∈ j.requestAdd := by
  have passed := answer.passed
  rw [assumptions_eq ready noDelete built, List.sublist_map_iff] at passed
  obtain ⟨items, sub, rfl⟩ := passed
  refine ⟨items, rfl, sub.nodup (ready.unitsNodup.filter _), ?_⟩
  intro item member
  have inRequests := List.mem_filter.mp (sub.subset member)
  exact ⟨inRequests.1, by simpa using inRequests.2⟩

/-- A failed assumption leads to a job without delete requests. -/
theorem noDelete_of_failed (ready : j.univ.Solvable) (requests : j.RequestsOfType)
    (built : pkgSolveJobsToSat j = some problem) {failed : List Int}
    (answer : FailedAssumptions problem failed) : j.requestDelete = [] := by
  unfold Jobs.RequestsOfType at requests
  split at requests
  · obtain ⟨literal, member, pos⟩ := exists_failed_pos ready built answer
    obtain ⟨item, _, ⟨add, _⟩ | ⟨_, isLiteral⟩⟩ :=
      mem_assumptions ready built (answer.passed.subset member)
    · rw [requests] at add
      cases add
    · omega
  · exact requests

end Assumptions

/-! ## Asking -/

theorem removeRequests_append (first second requests : List Addr) :
    removeRequests (first ++ second) requests =
      removeRequests second (removeRequests first requests) := by
  simp [removeRequests, List.filter_filter, Bool.and_comm]

section Asking

variable {W : Type} (world : SolverEnv W) {j : Jobs} {problem : SolveProblem}

/-- The failed assumptions that the user gives up when asked about one after the other, up to
the first that the user insists on. -/
def givenUp (problem : SolveProblem) : List Int → W → List Int × W
  | [], w => ([], w)
  | literal :: rest, w =>
      let question := removeQuestion (decide (0 < literal)) (problem.uid (literal.natAbs - 1))
      let (yes, w) := world.queryYesno question w
      if yes then (literal :: (givenUp problem rest w).1, (givenUp problem rest w).2) else ([], w)

theorem JobsUniverse.literalOf_pos (u : JobsUniverse) (item : Addr) : 0 < u.literalOf item := by
  simp only [JobsUniverse.literalOf]
  omega

theorem JobsUniverse.literalOf_index (u : JobsUniverse) (item : Addr) :
    (u.literalOf item).natAbs - 1 = u.varOf item := by
  simp only [JobsUniverse.literalOf]
  omega

theorem failedUnit_literalOf (mirrors : Mirrors j.univ problem.toSolveVariables) {item : Addr}
    (reachable : item ∈ j.univ.units) :
    failedUnit problem (j.univ.literalOf item) = some item := by
  have index : (j.univ.literalOf item).toNat - 1 = j.univ.varOf item := by
    simp [JobsUniverse.literalOf]
  rw [failedUnit, if_pos (j.univ.literalOf_pos item), index, mirrors.unit_varOf reachable]

/-- Asking about install requests drops those that the user gives up. -/
theorem askToRemove_items (mirrors : Mirrors j.univ problem.toSolveVariables)
    (items : List Addr) {current : Jobs} {w : W} (nodup : items.Nodup)
    (requested : ∀ item ∈ items, item ∈ j.univ.units ∧ item ∈ current.requestAdd ∧
      problem.toInstall (j.univ.varOf item) = true) :
    ∃ accepted after, accepted <+: items ∧
      (givenUp world problem (items.map j.univ.literalOf) w).1 =
        accepted.map j.univ.literalOf ∧
      askToRemove world problem (items.map j.univ.literalOf) current w =
        some (if accepted = items then .again else .fatal, after,
          (givenUp world problem (items.map j.univ.literalOf) w).2) ∧
      after.requestAdd = removeRequests accepted current.requestAdd ∧
      after.requestDelete = current.requestDelete := by
  have keepsAll : ∀ requests : List Addr, removeRequests [] requests = requests := by
    intro requests
    simp [removeRequests]
  induction items generalizing current w with
  | nil => exact ⟨[], current, List.prefix_refl _, rfl, rfl, (keepsAll _).symm, rfl⟩
  | cons item items ih =>
      obtain ⟨reachable, add, installs⟩ := requested item (by simp)
      obtain ⟨fresh, nodup⟩ := List.nodup_cons.mp nodup
      have index : (j.univ.literalOf item).toNat - 1 = j.univ.varOf item := by
        simp [JobsUniverse.literalOf]
      rw [List.map_cons, askToRemove, givenUp, failedUnit_literalOf mirrors reachable,
        decide_eq_true (j.univ.literalOf_pos item), j.univ.literalOf_index]
      simp only [Option.bind_eq_bind, Option.bind_some, index, installs]
      rw [Jobs.dropRequest, if_pos add]
      cases (world.queryYesno (removeQuestion true (problem.uid (j.univ.varOf item))) w).1 with
      | false =>
          refine ⟨[], current, List.nil_prefix, rfl, ?_, (keepsAll _).symm, rfl⟩
          rw [if_neg (show [] ≠ item :: items from (List.cons_ne_nil _ _).symm)]
          rfl
      | true =>
          obtain ⟨accepted, after, pre, givesUp, run, adds, deletes⟩ :=
            @ih { current with requestAdd := removeRequests [item] current.requestAdd }
              (world.queryYesno (removeQuestion true (problem.uid (j.univ.varOf item))) w).2 nodup (by
              intro other member
              obtain ⟨otherReachable, otherAdd, otherInstalls⟩ :=
                requested other (List.mem_cons_of_mem _ member)
              refine ⟨otherReachable, ?_, otherInstalls⟩
              have differs : other ≠ item := fun same => fresh (same ▸ member)
              simp [removeRequests, otherAdd, differs])
          refine ⟨item :: accepted, after, List.cons_prefix_cons.mpr ⟨rfl, pre⟩, ?_, ?_, ?_, deletes⟩
          · rw [if_pos rfl, List.map_cons, ← givesUp]
          · rw [if_pos rfl]
            simpa using run
          · rw [adds]
            exact (removeRequests_append [item] accepted current.requestAdd).symm

/-- The item that an assumption literal stands for. -/
def assumedItem (problem : SolveProblem) (literal : Int) : Option Addr :=
  problem.unit (literal.natAbs - 1)

/-- The recovery from one unsatisfiable answer: there is a failed assumption, the entry taken
for each is in the array and is the variable that was assumed, and asking removes the
requests that the user gives up, each from the table its sign says. -/
structure RecoversFrom (j : Jobs) (problem : SolveProblem) (failed : List Int) : Prop where
  nonempty : failed ≠ []
  inArray : ∀ literal ∈ failed, 1 ≤ literal ∧ literal ≤ problem.nvars
  entry : ∀ literal ∈ failed, ∃ item, failedUnit problem literal = some item ∧
    assumedItem problem literal = some item ∧
      (0 < literal → item ∈ j.requestAdd) ∧ (literal < 0 → item ∈ j.requestDelete)
  asks : ∀ w, world.picosat problem w = .unsatisfiable (failed.headD 0) failed.tail →
    ∃ after, pkgSolveSatProblem world problem j w =
        some (if (givenUp world problem failed w).1 = failed then .again else .fatal, problem,
          after, (givenUp world problem failed w).2) ∧
      after.requestAdd = removeRequests (((givenUp world problem failed w).1.filter
        (0 < ·)).filterMap (assumedItem problem)) j.requestAdd ∧
      after.requestDelete = removeRequests (((givenUp world problem failed w).1.filter
        (· < 0)).filterMap (assumedItem problem)) j.requestDelete

theorem recoversFrom (ready : j.univ.Solvable) (requests : j.RequestsOfType)
    (built : pkgSolveJobsToSat j = some problem) {failed : List Int}
    (answer : FailedAssumptions problem failed) : RecoversFrom world j problem failed := by
  have noDelete := noDelete_of_failed ready requests built answer
  have nonempty := failed_ne_nil ready built answer
  obtain ⟨problem', built', mirrors, _⟩ := pkgSolveJobsToSat_spec ready
  rw [built] at built'
  cases built'
  have passed := answer.passed
  obtain ⟨items, rfl, nodup, requested⟩ := exists_failed_items ready noDelete built answer
  have positive := j.univ.literalOf_pos
  have itemOf : ∀ item ∈ items, assumedItem problem (j.univ.literalOf item) = some item := by
    intro item member
    rw [assumedItem, j.univ.literalOf_index, mirrors.unit_varOf (requested item member).1]
  refine ⟨nonempty, ?_, ?_, fun w unsat => ?_⟩
  · intro literal member
    obtain ⟨item, inItems, rfl⟩ := List.mem_map.mp member
    have below := List.idxOf_lt_length_of_mem (requested item inItems).1
    have room : j.univ.units.length ≤ problem.nvars := by
      have nvars : problem.nvars = j.univ.nitems :=
        @pkgSolveJobsToSat_invariant j (fun other => other.nvars = j.univ.nitems)
          (fun _ _ holds => holds) (fun _ _ _ _ holds => ⟨fun _ => holds, fun _ => holds⟩) problem
          (fun _ _ _ => rfl) built
      rw [nvars]
      exact ready.room
    simp only [JobsUniverse.literalOf, JobsUniverse.varOf]
    omega
  · intro literal member
    obtain ⟨item, inItems, rfl⟩ := List.mem_map.mp member
    refine ⟨item, failedUnit_literalOf mirrors (requested item inItems).1, itemOf item inItems,
      fun _ => (requested item inItems).2, fun negative => ?_⟩
    have pos := positive item
    omega
  · obtain ⟨accepted, after, pre, givesUp, run, adds, deletes⟩ :=
      @askToRemove_items _ world j problem mirrors items
        (j.emitError "Cannot solve problem using SAT solver:") w nodup fun item member =>
        ⟨(requested item member).1, (requested item member).2, by
          have assumed := toInstall_of_assumed ready noDelete built
            (passed.subset (List.mem_map_of_mem member))
          rwa [j.univ.literalOf_index] at assumed⟩
    have injective : accepted.map j.univ.literalOf = items.map j.univ.literalOf ↔
        accepted = items := by
      constructor
      · intro same
        have lengths := congrArg List.length same
        rw [List.length_map, List.length_map] at lengths
        exact pre.eq_of_length lengths
      · exact fun same => by rw [same]
    refine ⟨after, ?_, ?_, ?_⟩
    · rw [pkgSolveSatProblem, unsat, givesUp]
      dsimp only
      have whole : (items.map j.univ.literalOf).headD 0 :: (items.map j.univ.literalOf).tail =
          items.map j.univ.literalOf := by
        cases isItems : items.map j.univ.literalOf with
        | nil => exact absurd isItems nonempty
        | cons first others => rfl
      rw [whole, run]
      simp only [injective]
      rfl
    · rw [givesUp, adds]
      have allPositive : (accepted.map j.univ.literalOf).filter (0 < ·) =
          accepted.map j.univ.literalOf := by
        rw [List.filter_eq_self]
        intro literal member
        obtain ⟨item, _, rfl⟩ := List.mem_map.mp member
        exact decide_eq_true (positive item)
      have items' : (accepted.map j.univ.literalOf).filterMap (assumedItem problem) = accepted := by
        rw [List.filterMap_map]
        have same : ∀ item ∈ accepted,
            (assumedItem problem ∘ j.univ.literalOf) item = some item :=
          fun item member => itemOf item (pre.subset member)
        rw [List.filterMap_congr same, List.filterMap_some]
      rw [allPositive, items']
      rfl
    · have noneNegative : (accepted.map j.univ.literalOf).filter (· < 0) = [] := by
        rw [List.filter_eq_nil_iff]
        intro literal member
        obtain ⟨item, _, rfl⟩ := List.mem_map.mp member
        have pos := positive item
        simp only [decide_eq_true_eq]
        omega
      have unchanged : after.requestDelete = j.requestDelete := deletes
      rw [givesUp, unchanged, noneNegative, noDelete]
      rfl

end Asking

/-! ## Solving again -/

/-- The number of entries in the two request tables. -/
def Jobs.numRequests (j : Jobs) : Nat := j.requestAdd.length + j.requestDelete.length

/-- What a turn of the loop does to a job: requests go, nothing else of the problem changes. -/
structure Fewer (j j' : Jobs) : Prop where
  univ : j'.univ = j.univ
  type : j'.type = j.type
  adds : j'.requestAdd.Sublist j.requestAdd
  deletes : j'.requestDelete.Sublist j.requestDelete

namespace Fewer

variable {j j' j'' : Jobs}

theorem refl (j : Jobs) : Fewer j j := ⟨rfl, rfl, List.Sublist.refl _, List.Sublist.refl _⟩

theorem trans (first : Fewer j j') (second : Fewer j' j'') : Fewer j j'' where
  univ := second.univ.trans first.univ
  type := second.type.trans first.type
  adds := second.adds.trans first.adds
  deletes := second.deletes.trans first.deletes

theorem numRequests_le (fewer : Fewer j j') : j'.numRequests ≤ j.numRequests :=
  Nat.add_le_add fewer.adds.length_le fewer.deletes.length_le

theorem requestsOfType (fewer : Fewer j j') (requests : j.RequestsOfType) :
    j'.RequestsOfType := by
  unfold Jobs.RequestsOfType at *
  rw [fewer.type]
  split
  · next deletes =>
      rw [if_pos deletes] at requests
      exact List.sublist_nil.mp (requests ▸ fewer.adds)
  · next installs =>
      rw [if_neg installs] at requests
      exact List.sublist_nil.mp (requests ▸ fewer.deletes)

end Fewer

section Turns

variable {W : Type} {world : SolverEnv W} {j j' : Jobs} {w w' : W}

theorem removeRequests_sublist (items requests : List Addr) :
    (removeRequests items requests).Sublist requests := List.filter_sublist

theorem processUpgradeChain_fewer {versionCmp : String → String → Int} {head : Addr}
    (ran : processUpgradeChain versionCmp j head = some j') : Fewer j j' := by
  have drops : ∀ items : List Addr,
      Fewer j { j with requestAdd := removeRequests items j.requestAdd } :=
    fun items => ⟨rfl, rfl, removeRequests_sublist items _, List.Sublist.refl _⟩
  unfold processUpgradeChain at ran
  dsimp only at ran
  split at ran
  · split at ran
    · cases ran
      exact drops _
    · split at ran
      · obtain ⟨selected, _, rfl⟩ := Option.map_eq_some_iff.mp ran
        exact drops _
      · cases ran
        exact .refl j
  · split at ran
    · obtain ⟨selected, _, rfl⟩ := Option.map_eq_some_iff.mp ran
      exact drops _
    · cases ran
      exact .refl j

theorem pkgJobsUniverseProcessUpgradeChains_fewer {versionCmp : String → String → Int}
    (ran : pkgJobsUniverseProcessUpgradeChains versionCmp j = some j') : Fewer j j' := by
  unfold pkgJobsUniverseProcessUpgradeChains at ran
  generalize j.univ.items = entries at ran
  induction entries generalizing j with
  | nil =>
      cases ran
      exact .refl _
  | cons entry rest ih =>
      rw [List.foldlM_cons, Option.bind_eq_bind, Option.bind_eq_some_iff] at ran
      obtain ⟨mid, first, later⟩ := ran
      exact (processUpgradeChain_fewer first).trans (ih later)

/-- Dropping a request leaves one request fewer at least. -/
theorem dropRequest_fewer {install : Bool} {unit : Addr}
    (ran : j.dropRequest install unit = some j') :
    Fewer j j' ∧ j'.numRequests < j.numRequests := by
  have shorter : ∀ requests : List Addr, unit ∈ requests →
      (removeRequests [unit] requests).length < requests.length := by
    intro requests member
    refine List.length_filter_lt_length_iff_exists.mpr ⟨unit, member, ?_⟩
    simp
  cases install with
  | true =>
      simp only [Jobs.dropRequest] at ran
      split at ran
      · next present =>
          cases ran
          exact ⟨⟨rfl, rfl, removeRequests_sublist _ _, List.Sublist.refl _⟩,
            Nat.add_lt_add_right (shorter _ present) _⟩
      · cases ran
  | false =>
      simp only [Jobs.dropRequest] at ran
      split at ran
      · next present =>
          cases ran
          exact ⟨⟨rfl, rfl, List.Sublist.refl _, removeRequests_sublist _ _⟩,
            Nat.add_lt_add_left (shorter _ present) _⟩
      · cases ran

theorem askToRemove_fewer {problem : SolveProblem} {failed : List Int}
    (ran : askToRemove world problem failed j w = some (.again, j', w')) :
    Fewer j j' ∧ (failed ≠ [] → j'.numRequests < j.numRequests) := by
  induction failed generalizing j w with
  | nil =>
      cases ran
      exact ⟨.refl _, fun nonempty => absurd rfl nonempty⟩
  | cons literal rest ih =>
      rw [askToRemove] at ran
      obtain ⟨unit, _, ran⟩ := Option.bind_eq_some_iff.mp ran
      dsimp only at ran
      split at ran
      · cases ran
      · cases ran
      · next dropped =>
          obtain ⟨first, less⟩ := dropRequest_fewer dropped
          obtain ⟨others, _⟩ := ih ran
          exact ⟨first.trans others, fun _ => Nat.lt_of_le_of_lt others.numRequests_le less⟩

variable (world) in
/-- The code from the label `again` to the jump back to it. -/
def againTurn (j : Jobs) (w : W) : Option (Jobs × W) := do
  let j ← pkgJobsUniverseProcessUpgradeChains world.env.versionCmp j
  let problem ← pkgSolveJobsToSat j
  if world.satSolver then none
  else do
    let (ret, _, j, w) ← pkgSolveSatProblem world problem j w
    if ret = .again then some (j, w) else none

variable (world) in
/-- So many jumps back. -/
def againTurns : Nat → Jobs → W → Option (Jobs × W)
  | 0, j, w => some (j, w)
  | n + 1, j, w => do
      let (j, w) ← againTurn world j w
      againTurns n j w

theorem againTurn_fewer (ran : againTurn world j w = some (j', w')) :
    Fewer j j' ∧ j'.numRequests < j.numRequests := by
  simp only [againTurn, Option.bind_eq_bind, Option.bind_eq_some_iff] at ran
  obtain ⟨chained, chains, problem, _, ran⟩ := ran
  have trimmed := pkgJobsUniverseProcessUpgradeChains_fewer chains
  split at ran
  · cases ran
  · obtain ⟨⟨ret, problem', mid, wMid⟩, solver, result⟩ := Option.bind_eq_some_iff.mp ran
    dsimp only at result
    split at result
    · next again =>
        cases result
        unfold pkgSolveSatProblem at solver
        split at solver
        · cases solver
          cases again
        · obtain ⟨⟨rc, asked, wAsked⟩, asks, last⟩ := Option.bind_eq_some_iff.mp solver
          cases last
          cases again
          obtain ⟨fewer, less⟩ := askToRemove_fewer asks
          have emitted : Fewer chained
              (chained.emitError "Cannot solve problem using SAT solver:") :=
            ⟨rfl, rfl, List.Sublist.refl _, List.Sublist.refl _⟩
          exact ⟨(trimmed.trans emitted).trans fewer,
            Nat.lt_of_lt_of_le (less (List.cons_ne_nil _ _)) trimmed.numRequests_le⟩
    · cases result

/-- Every jump back takes a request at least. -/
theorem againTurns_fewer {n : Nat} (ran : againTurns world n j w = some (j', w')) :
    Fewer j j' ∧ j'.numRequests + n ≤ j.numRequests := by
  induction n generalizing j w with
  | zero =>
      cases ran
      exact ⟨.refl _, Nat.le_refl _⟩
  | succ n ih =>
      obtain ⟨⟨mid, wMid⟩, first, later⟩ := Option.bind_eq_some_iff.mp ran
      obtain ⟨fewer, less⟩ := againTurn_fewer first
      obtain ⟨fewerRest, bound⟩ := ih later
      exact ⟨fewer.trans fewerRest, by omega⟩

theorem solveAgain_againTurn (fuel : Nat) (ran : againTurn world j w = some (j', w')) :
    solveAgain world (fuel + 1) j w = solveAgain world fuel j' w' := by
  simp only [againTurn, Option.bind_eq_bind, Option.bind_eq_some_iff] at ran
  obtain ⟨chained, chains, problem, built, ran⟩ := ran
  split at ran
  · cases ran
  · next builtin =>
      obtain ⟨⟨ret, problem', mid, wMid⟩, solver, result⟩ := Option.bind_eq_some_iff.mp ran
      dsimp only at result
      split at result
      · next again =>
          cases result
          cases again
          rw [solveAgain, chains]
          simp only [Option.bind_eq_bind, Option.bind_some, built, if_neg builtin, solver]
      · cases result

/-- The jumps back are those of `solveAgain`. -/
theorem solveAgain_againTurns {n : Nat} (fuel : Nat)
    (ran : againTurns world n j w = some (j', w')) :
    solveAgain world (fuel + n) j w = solveAgain world fuel j' w' := by
  induction n generalizing j w with
  | zero =>
      cases ran
      rfl
  | succ n ih =>
      obtain ⟨⟨mid, wMid⟩, first, later⟩ := Option.bind_eq_some_iff.mp ran
      exact (solveAgain_againTurn (fuel + n) first).trans (ih later)

end Turns

/-- The loop of `pkg_jobs_solve` jumps back once for each request at most, and in every turn
of it the recovery works for every answer that PicoSAT may give. -/
theorem unsat_recovery {W : Type} (world : SolverEnv W) {j : Jobs} (ready : j.univ.Solvable)
    (requests : j.RequestsOfType) :
    ∀ n w last w', againTurns world n j w = some (last, w') →
      n ≤ j.numRequests ∧
        (∀ fuel, solveAgain world (fuel + n) j w = solveAgain world fuel last w') ∧
        ∀ mid problem, pkgJobsUniverseProcessUpgradeChains world.env.versionCmp last = some mid →
          pkgSolveJobsToSat mid = some problem → ∀ failed, FailedAssumptions problem failed →
            RecoversFrom world mid problem failed := by
  intro n w last w' ran
  obtain ⟨fewer, bound⟩ := againTurns_fewer ran
  refine ⟨by omega, fun fuel => solveAgain_againTurns fuel ran, ?_⟩
  intro mid problem chains built failed answer
  have fewer := fewer.trans (pkgJobsUniverseProcessUpgradeChains_fewer chains)
  exact recoversFrom world (by rw [fewer.univ]; exact ready) (fewer.requestsOfType requests)
    built answer

/-- Two requested packages that conflict with each other. -/
def clashingRequests : Jobs where
  univ := JobsUniverse.ofPackages Pkg.digest
    [{ type := .remote, uid := "left", digest := some "d1", conflicts := [{ uniqueid := "right" }] },
     { type := .remote, uid := "right", digest := some "d2", conflicts := [{ uniqueid := "left" }] }]
  requestAdd := [0, 1]

theorem clashingRequests_solvable : clashingRequests.univ.Solvable :=
  (JobsUniverse.repInv_ofPackages _ _).solvable (by decide)

theorem clashingRequests_recovers : ∃ problem, pkgSolveJobsToSat clashingRequests = some problem ∧
    RecoversFrom (clashingEnv .ok) clashingRequests problem [1, 2] := by
  obtain ⟨problem, built, _⟩ := pkgSolveJobsToSat_spec clashingRequests_solvable
  have shape : (pkgSolveJobsToSat clashingRequests).map (fun problem =>
      (problem.assumptions, problem.rules.map SolveRule.clause)) =
        some ([1, 2], [[⟨0, false⟩, ⟨1, false⟩], [⟨1, false⟩, ⟨0, false⟩]]) := by decide
  rw [built, Option.map_some, Option.some_inj, Prod.mk.injEq] at shape
  obtain ⟨assumptions, clauses⟩ := shape
  refine ⟨problem, built, (unsat_recovery (clashingEnv .ok) clashingRequests_solvable
    (show clashingRequests.requestDelete = [] from rfl) 0 0 _ _ rfl).2.2 _ problem (by rfl) built _
      ⟨by rw [assumptions], ?_⟩⟩
  rintro ⟨σ, satisfied, assumed⟩
  rw [SolveProblem.Satisfied, clauses] at satisfied
  have first := assumed 1 (by decide)
  have second := assumed 2 (by decide)
  obtain ⟨literal, member, holds⟩ := satisfied _ (List.mem_cons_self ..)
  rcases List.mem_pair.mp member with rfl | rfl
  · exact absurd (first.symm.trans holds) (by decide)
  · exact absurd (second.symm.trans holds) (by decide)
end Pkgng
