import Pkgng.Solve.Export

/-!
# The loops that order the variables

`pkg_solve_dimacs_export` and `pkg_solve_parse_sat_output` number the variables once
more, each with a loop over `PKG_SOLVE_VAR_NEXT`.  The macro has no last element: the
loops leave the array after its last entry and go on.
-/

set_option autoImplicit false

namespace Pkgng

open Lib

/-- The loop of `pkg_solve_parse_sat_output`, whose table is keyed by the order; `none`
if it has not stopped within the given number of turns. -/
def numberVariables : Nat → Option Nat → Nat → HashTable Nat Nat → Option (HashTable Nat Nat)
  | 0, _, _, _ => none
  | fuel + 1, var, curOrd, ordered =>
      match pkgSolveVarNext var with
      | none => some ordered
      | some next =>
          numberVariables fuel (some next) (curOrd + 1) (HashTable.add curOrd next ordered)

/-- The entry of `problem->variables` that a turn of either loop takes. -/
def entryOfTurn : Nat → Option Nat
  | 0 => pkgSolveVarNext none
  | turn + 1 => pkgSolveVarNext (entryOfTurn turn)

/-- A loop over the variables ends after the entries of the array, each one once and in
their order, and the `k`-th of them has the order `k` that it was added with. -/
def OrdersEach (problem : SolveProblem) (visits : Option (List (Nat × Nat))) : Prop :=
  visits = some ((List.range problem.nvars).map fun var => (var, var + 1)) ∧
    ∀ var, var < problem.nvars → problem.order var = var + 1

/-- What both loops are for: they end, visit the array and nothing else. -/
structure VariablesOrdered (problem : SolveProblem) : Prop where
  dimacsExport : ∃ fuel, OrdersEach problem (orderVariables fuel none 1 [])
  parseSatOutput : ∃ fuel, OrdersEach problem
    ((numberVariables fuel none 1 []).map fun ordered => ordered.map Prod.swap)
  inside : ∀ turn var, entryOfTurn turn = some var → var < problem.nvars

theorem numberVariables_eq_none (fuel : Nat) (var : Option Nat) (curOrd : Nat)
    (ordered : HashTable Nat Nat) : numberVariables fuel var curOrd ordered = none := by
  induction fuel generalizing var curOrd ordered with
  | zero => rfl
  | succ fuel ih =>
      cases var with
      | none => exact ih (some 0) (curOrd + 1) _
      | some e => exact ih (some (e + 1)) (curOrd + 1) _

/-- No turn is the last one, and the turns run through the whole memory. -/
theorem entryOfTurn_eq (turn : Nat) : entryOfTurn turn = some turn := by
  induction turn with
  | zero => rfl
  | succ turn ih => rw [entryOfTurn, ih, pkgSolveVarNext]

/-- For no problem does either loop end, and both leave the array. -/
theorem variables_never_ordered (problem : SolveProblem) :
    ¬(∃ fuel, OrdersEach problem (orderVariables fuel none 1 [])) ∧
      ¬(∃ fuel, OrdersEach problem
        ((numberVariables fuel none 1 []).map fun ordered => ordered.map Prod.swap)) ∧
      ¬(∀ turn var, entryOfTurn turn = some var → var < problem.nvars) := by
  refine ⟨?_, ?_, ?_⟩
  · rintro ⟨fuel, ended, _⟩
    rw [orderVariables_eq_none] at ended
    cases ended
  · rintro ⟨fuel, ended, _⟩
    rw [numberVariables_eq_none] at ended
    cases ended
  · intro inside
    have outside := inside problem.nvars problem.nvars (entryOfTurn_eq problem.nvars)
    omega

/-- Two variables with the orders one and two, which the loops run past. -/
theorem dependencyProblem_not_ordered :
    dependencyProblem.order 0 = 1 ∧ dependencyProblem.order 1 = 2 ∧
      entryOfTurn 2 = some dependencyProblem.nvars ∧ ¬VariablesOrdered dependencyProblem := by
  refine ⟨rfl, rfl, rfl, fun ordered => ?_⟩
  have outside := ordered.inside 2 2 rfl
  exact absurd outside (Nat.lt_irrefl 2)

end Pkgng
