import Pkgng.Solve.Encoding

/-!
# The requests as assumptions

`pkg_solve_add_unary_rule` hands one literal to `picosat_assume` for each requested
item of the universe.  No other generator does, so the assumptions of a problem hold
exactly when the requests are met.
-/

set_option autoImplicit false

namespace Pkgng

open Lib

/-- The assignment makes every literal passed to `picosat_assume` true. -/
def SolveProblem.Assumed (problem : SolveProblem) (σ : Nat → Bool) : Prop :=
  ∀ literal ∈ problem.assumptions, σ (literal.natAbs - 1) = decide (0 < literal)

/-- A selection of items that grants both tables of requests. -/
def Jobs.MeetsRequests (j : Jobs) (selected : Addr → Bool) : Prop :=
  ∀ item ∈ j.univ.units,
    (item ∈ j.requestAdd → selected item = true) ∧
      (item ∈ j.requestDelete → selected item = false)

/-- The literals that `addRequestRules` assumes for a variable. -/
def requestLiterals (j : Jobs) (sv : SolveVariables) (var : Nat) : List Int :=
  (if (sv.unit var).any (· ∈ j.requestAdd) then [(sv.order var : Int) * 1] else []) ++
    if (sv.unit var).any (· ∈ j.requestDelete) then [(sv.order var : Int) * -1] else []

/-- From `problem` to `problem'` the variables stay and the literals are assumed. -/
structure Assumes (problem problem' : SolveProblem) (literals : List Int) : Prop where
  kept : problem'.toSolveVariables = problem.toSolveVariables
  assumptions : problem'.assumptions = problem.assumptions ++ literals

namespace Assumes

variable {problem problem' problem'' : SolveProblem} {literals literals' : List Int}

theorem refl (problem : SolveProblem) : Assumes problem problem [] :=
  ⟨rfl, (List.append_nil _).symm⟩

theorem trans (first : Assumes problem problem' literals)
    (second : Assumes problem' problem'' literals') :
    Assumes problem problem'' (literals ++ literals') where
  kept := second.kept.trans first.kept
  assumptions := by
    rw [second.assumptions, first.assumptions, List.append_assoc]

theorem addRule (problem : SolveProblem) (rule : SolveRule) :
    Assumes problem (problem.addRule rule) [] :=
  ⟨rfl, (List.append_nil _).symm⟩

theorem foldl {α : Type} {f : SolveProblem → α → SolveProblem}
    (step : ∀ x other, Assumes other (f other x) []) (xs : List α) (problem : SolveProblem) :
    Assumes problem (xs.foldl f problem) [] := by
  induction xs generalizing problem with
  | nil => exact refl problem
  | cons x xs ih => exact (step x problem).trans (ih (f problem x))

/-- A loop assumes the literals of its turns, which depend on the variables only. -/
theorem foldlM {α : Type} {f : SolveProblem → α → Option SolveProblem}
    {sv : SolveVariables} (literals : α → List Int) (xs : List α)
    (step : ∀ x ∈ xs, ∀ other next, other.toSolveVariables = sv → f other x = some next →
      Assumes other next (literals x)) :
    ∀ {problem last : SolveProblem}, problem.toSolveVariables = sv →
      xs.foldlM f problem = some last → Assumes problem last (xs.flatMap literals) := by
  induction xs with
  | nil =>
      intro problem last _ runs
      cases runs
      exact refl problem
  | cons x xs ih =>
      intro problem last same runs
      rw [List.foldlM_cons, Option.bind_eq_bind, Option.bind_eq_some_iff] at runs
      obtain ⟨next, first, rest⟩ := runs
      have here := step x (List.mem_cons_self ..) problem next same first
      have later := ih (fun y member => step y (List.mem_cons_of_mem _ member))
        (here.kept.trans same) rest
      exact here.trans later

end Assumes

section Generators

variable (u : JobsUniverse) (problem : SolveProblem)

theorem addDependRules_assumes (pkg : Pkg) (var : Nat) :
    Assumes problem (addDependRules problem pkg var) [] := by
  apply Assumes.foldl
  intro dep other
  unfold pkgSolveAddDependRule
  split
  · exact .refl other
  · exact .addRule other _

theorem addConflictRules_assumes (pkg : Pkg) (var : Nat) :
    Assumes problem (addConflictRules u problem pkg var) [] := by
  apply Assumes.foldl
  intro conflict other
  unfold pkgSolveAddConflictRule
  split
  · exact .refl other
  · apply Assumes.foldl
    intro curvar another
    split
    · exact .refl another
    · exact .addRule another _

theorem pkgSolveAddRequireRule_assumes {var : Nat} {shlib : String} {code : Epkg}
    {next : SolveProblem} (runs : pkgSolveAddRequireRule u problem var shlib = some (code, next)) :
    Assumes problem next [] := by
  unfold pkgSolveAddRequireRule at runs
  split at runs
  · cases runs
    exact .refl problem
  · simp only [Option.bind_eq_bind, Option.bind_eq_some_iff] at runs
    obtain ⟨⟨rule, cnt⟩, _, added⟩ := runs
    dsimp only at added
    split at added
    · cases added
      exact .addRule problem rule
    · cases added
      exact .refl problem

theorem addRequireRules_assumes {pkg : Pkg} {var : Nat} {next : SolveProblem}
    (runs : addRequireRules u problem pkg var = some next) : Assumes problem next [] := by
  unfold addRequireRules at runs
  split at runs
  · cases runs
    exact .refl problem
  · have step : ∀ shlib ∈ pkg.shlibsRequired, ∀ other next : SolveProblem,
        other.toSolveVariables = problem.toSolveVariables →
        Prod.snd <$> pkgSolveAddRequireRule u other var shlib = some next →
          Assumes other next [] := by
      intro shlib _ other next _ added
      obtain ⟨⟨code, last⟩, one, rfl⟩ := Option.map_eq_some_iff.mp added
      exact pkgSolveAddRequireRule_assumes u other one
    have assumes := Assumes.foldlM (fun _ => []) pkg.shlibsRequired step rfl runs
    rwa [List.flatMap_eq_nil_iff.mpr fun _ _ => rfl] at assumes

theorem pkgSolveAddChainRule_assumes (var : Nat) :
    Assumes problem (pkgSolveAddChainRule problem var) [] :=
  Assumes.foldl (fun _ other => .addRule other _) _ problem

theorem addRequestRules_assumes (j : Jobs) (var : Nat) :
    Assumes problem (addRequestRules j problem var)
      (requestLiterals j problem.toSolveVariables var) := by
  unfold addRequestRules requestLiterals
  by_cases add : (problem.unit var).any (· ∈ j.requestAdd) = true <;>
    by_cases delete : (problem.unit var).any (· ∈ j.requestDelete) = true <;>
      constructor <;> simp [add, delete, pkgSolveAddUnaryRule, SolveVariables.order]

/-- One turn of the loop over a chain assumes the literals of its variable. -/
theorem processVariable_assumes {j : Jobs} {chainAdded chainAdded' : Bool} {var : Nat}
    {next : SolveProblem}
    (runs : processVariable j (problem, chainAdded) var = some (next, chainAdded')) :
    Assumes problem next (requestLiterals j problem.toSolveVariables var) := by
  simp only [processVariable, Option.bind_eq_bind, Option.bind_eq_some_iff] at runs
  obtain ⟨required, requires, last⟩ := runs
  have rules : Assumes problem required [] :=
    ((addDependRules_assumes problem _ var).trans (addConflictRules_assumes j.univ _ _ var)).trans
      (addRequireRules_assumes j.univ _ requires)
  have requests := rules.trans (addRequestRules_assumes required j var)
  rw [rules.kept, List.nil_append] at requests
  split at last
  · cases last
    simpa using requests.trans (pkgSolveAddChainRule_assumes _ var)
  · cases last
    exact requests

theorem processVariables_assumes {j : Jobs} : ∀ (vars : List Nat) {problem last : SolveProblem}
    {chainAdded chainAdded' : Bool},
    vars.foldlM (processVariable j) (problem, chainAdded) = some (last, chainAdded') →
      Assumes problem last (vars.flatMap (requestLiterals j problem.toSolveVariables))
  | [], problem, last, _, _, runs => by
      cases runs
      exact .refl problem
  | var :: vars, problem, last, _, _, runs => by
      rw [List.foldlM_cons, Option.bind_eq_bind, Option.bind_eq_some_iff] at runs
      obtain ⟨⟨next, _⟩, first, rest⟩ := runs
      have here := processVariable_assumes problem first
      have later := processVariables_assumes vars rest
      rw [here.kept] at later
      exact here.trans later

end Generators

section Meaning

variable {j : Jobs} {problem : SolveProblem} {σ : Nat → Bool}

/-- The assumptions of a problem are the literals of the items of the universe. -/
theorem pkgSolveJobsToSat_assumptions (ready : j.univ.Solvable)
    (built : pkgSolveJobsToSat j = some problem) :
    problem.assumptions = j.univ.units.flatMap fun item =>
      requestLiterals j problem.toSolveVariables (j.univ.varOf item) := by
  obtain ⟨sv, filled, mirrors, _⟩ := pkgSolveAddVariables_spec ready.toChained ready.room
  rw [pkgSolveJobsToSat, filled] at built
  have step : ∀ entry ∈ j.univ.items, ∀ other next : SolveProblem, other.toSolveVariables = sv →
      (do
        let var ← HashTable.find (j.pkg entry.2).uid other.variablesByUid
        pkgSolveProcessUniverseVariable j other var) = some next →
      Assumes other next ((j.univ.chain entry.2).flatMap fun item =>
        requestLiterals j sv (j.univ.varOf item)) := by
    intro entry member other next same runs
    have headUid : (j.pkg entry.2).uid = entry.1 := ready.homogeneous entry member entry.2
      (JobsUniverse.head_mem ready.toChained member)
    have foundVar : HashTable.find entry.1 other.variablesByUid =
        some (j.univ.varOf entry.2) := by
      rw [same, mirrors.find, (JobsUniverse.find_eq_some_iff ready.toChained).mpr member]
      rfl
    rw [headUid, foundVar, Option.bind_eq_bind, Option.bind_some] at runs
    obtain ⟨⟨last, _⟩, loop, rfl⟩ := Option.map_eq_some_iff.mp runs
    have assumes := processVariables_assumes _ loop
    rw [same, mirrors.chainFrom_head ready.toChained member, List.flatMap_map] at assumes
    exact assumes
  have empty : ({ sv with nvars := j.univ.nitems } : SolveProblem).toSolveVariables = sv := rfl
  have assumes := Assumes.foldlM _ j.univ.items step empty built
  rw [assumes.assumptions, assumes.kept, JobsUniverse.units, JobsUniverse.chains,
    ← List.flatMap_def, List.flatMap_assoc]
  rfl

theorem natAbs_literal (var : Nat) :
    ((var + 1 : Nat) : Int).natAbs - 1 = var ∧ (-((var + 1 : Nat) : Int)).natAbs - 1 = var := by
  omega

theorem literal_pos (var : Nat) :
    0 < ((var + 1 : Nat) : Int) ∧ ¬0 < -((var + 1 : Nat) : Int) := by
  omega

/-- Assuming the literals means granting the requests. -/
theorem assumed_iff (ready : j.univ.Solvable) (built : pkgSolveJobsToSat j = some problem) :
    problem.Assumed σ ↔ j.MeetsRequests fun item => σ (j.univ.varOf item) := by
  obtain ⟨problem', built', mirrors, _⟩ := pkgSolveJobsToSat_spec ready
  rw [built] at built'
  cases built'
  have literals : ∀ item ∈ j.univ.units, ∀ literal,
      literal ∈ requestLiterals j problem.toSolveVariables (j.univ.varOf item) ↔
        (item ∈ j.requestAdd ∧ literal = (j.univ.varOf item + 1 : Nat)) ∨
          (item ∈ j.requestDelete ∧ literal = -(j.univ.varOf item + 1 : Nat)) := by
    intro item reachable literal
    have order := mirrors.orders (j.univ.varOf item) (List.idxOf_lt_length_of_mem reachable)
    rw [requestLiterals, mirrors.unit_varOf reachable, order, List.mem_append]
    by_cases add : item ∈ j.requestAdd <;> by_cases delete : item ∈ j.requestDelete <;>
      simp [add, delete]
  unfold SolveProblem.Assumed Jobs.MeetsRequests
  rw [pkgSolveJobsToSat_assumptions ready built]
  constructor
  · intro assumed item reachable
    constructor
    · intro add
      have literal := assumed _ (List.mem_flatMap.mpr
        ⟨item, reachable, (literals item reachable _).mpr (Or.inl ⟨add, rfl⟩)⟩)
      rwa [(natAbs_literal _).1, decide_eq_true (literal_pos _).1] at literal
    · intro delete
      have literal := assumed _ (List.mem_flatMap.mpr
        ⟨item, reachable, (literals item reachable _).mpr (Or.inr ⟨delete, rfl⟩)⟩)
      rwa [(natAbs_literal _).2, decide_eq_false (literal_pos _).2] at literal
  · intro granted literal member
    obtain ⟨item, reachable, requested⟩ := List.mem_flatMap.mp member
    rcases (literals item reachable literal).mp requested with ⟨add, rfl⟩ | ⟨delete, rfl⟩
    · rw [(natAbs_literal _).1, decide_eq_true (literal_pos _).1]
      exact (granted item reachable).1 add
    · rw [(natAbs_literal _).2, decide_eq_false (literal_pos _).2]
      exact (granted item reachable).2 delete

end Meaning

end Pkgng
