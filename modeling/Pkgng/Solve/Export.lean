import Pkgng.Lib.Dimacs
import Pkgng.Solve.Encoding

/-!
# The DIMACS export

`pkg_solve_dimacs_export` numbers the variables in a loop of its own and then
prints the rules; `pkg_solve_sat_problem` hands the same rules to PicoSAT.  The
numbering loop has no exit, so nothing is ever printed; the printing itself
loses the signs of the literals and the requests.
-/

set_option autoImplicit false

namespace Pkgng

open Lib

/-- The clauses that `pkg_solve_sat_problem` adds to PicoSAT. -/
def picosatClauses (problem : SolveProblem) : List (List Int) :=
  problem.rules.map fun rule => rule.items.map fun item =>
    (problem.order item.var : Int) * item.inverse

def pkgSolveVarNext : Option Nat → Option Nat
  | none => some 0
  | some var => some (var + 1)

/-- The loop that orders the variables; `none` if it has not stopped within the
given number of turns. -/
def orderVariables : Nat → Option Nat → Nat → HashTable Nat Nat → Option (HashTable Nat Nat)
  | 0, _, _, _ => none
  | fuel + 1, var, curOrd, ordered =>
      match pkgSolveVarNext var with
      | none => some ordered
      | some next => orderVariables fuel (some next) (curOrd + 1) (HashTable.add next curOrd ordered)

/-- `it->inverse ? "-" : ""`. -/
def dimacsSign (inverse : Int) : List Char := if inverse ≠ 0 then ['-'] else []

/-- One line of the output, for one rule. -/
def dimacsRule (ordered : HashTable Nat Nat) (rule : SolveRule) : List Char :=
  rule.items.flatMap (fun item =>
    match HashTable.find item.var ordered with
    | some order => dimacsSign item.inverse ++ Nat.toDigits 10 order ++ [' ']
    | none => []) ++ ['0', '\n']

/-- The printing part. -/
def dimacsPrint (ordered : HashTable Nat Nat) (problem : SolveProblem) : List Char :=
  Dimacs.header problem.nvars problem.rulesCount ++
    '\n' :: problem.rules.flatMap (dimacsRule ordered)

/-- What the file holds when the function returns within the given number of
turns of its first loop. -/
def pkgSolveDimacsExport (fuel : Nat) (problem : SolveProblem) : Option (List Char) := do
  let ordered ← orderVariables fuel none 1 []
  pure (dimacsPrint ordered problem)

/-- The text states the problem that PicoSAT is given: its clauses and its
assumptions, under a header that counts the clause lines. -/
def Exports (problem : SolveProblem) (text : List Char) : Prop :=
  ∃ dimacs, Dimacs.parse text = some dimacs ∧
    dimacs.clauses.Perm (picosatClauses problem ++ problem.assumptions.map fun lit => [lit]) ∧
    dimacs.declared = dimacs.clauses.length

/-- No turn of the ordering loop is the last one. -/
theorem orderVariables_eq_none (fuel : Nat) (var : Option Nat) (curOrd : Nat)
    (ordered : HashTable Nat Nat) : orderVariables fuel var curOrd ordered = none := by
  induction fuel generalizing var curOrd ordered with
  | zero => rfl
  | succ fuel ih =>
      cases var with
      | none => exact ih (some 0) (curOrd + 1) _
      | some e => exact ih (some (e + 1)) (curOrd + 1) _

theorem pkgSolveDimacsExport_eq_none (fuel : Nat) (problem : SolveProblem) :
    pkgSolveDimacsExport fuel problem = none := by
  rw [pkgSolveDimacsExport, orderVariables_eq_none]
  rfl

/-- The export of no problem states it. -/
theorem dimacsExport_never_exports (problem : SolveProblem) :
    ¬ ∃ fuel text, pkgSolveDimacsExport fuel problem = some text ∧ Exports problem text := by
  rintro ⟨fuel, text, returned, _⟩
  rw [pkgSolveDimacsExport_eq_none] at returned
  cases returned

/-- One required package and its dependency: two variables, one rule, no
request. -/
def dependencyProblem : SolveProblem where
  vars := [some ⟨0, "app", 1⟩, some ⟨1, "lib", 2⟩]
  variablesByUid := [("app", 0), ("lib", 1)]
  nvars := 2
  rules := [{ reason := "dependency", items := [⟨1, 1⟩, ⟨0, -1⟩] }]
  rulesCount := 1

theorem dependencyProblem_not_exported :
    ¬ ∃ fuel text, pkgSolveDimacsExport fuel dependencyProblem = some text ∧
      Exports dependencyProblem text := by
  rintro ⟨fuel, text, returned, _⟩
  rw [pkgSolveDimacsExport_eq_none] at returned
  cases returned

/-! ## The printing part -/

/-- The table that the ordering loop would have filled had it stopped after the
last variable. -/
def arrayOrder (nvars : Nat) : HashTable Nat Nat :=
  (List.range nvars).map fun var => (var, var + 1)

section Printing

theorem find_arrayOrder {nvars var : Nat} (inArray : var < nvars) :
    HashTable.find var (arrayOrder nvars) = some (var + 1) := by
  have keys : ((arrayOrder nvars).map Prod.fst).Nodup := by
    simp [arrayOrder, Function.comp_def, List.nodup_range]
  rw [HashTable.find_eq_some_iff keys]
  exact List.mem_map_of_mem (List.mem_range.mpr inArray)

/-- The literal of an item as the export prints it. -/
def negated (item : SolveItem) : Int := -((item.var : Int) + 1)

/-- The rules as the built-in solver's encoder leaves them: literals of
variables of the array, in the order of the array. -/
structure WellNumbered (problem : SolveProblem) : Prop where
  inArray : ∀ rule ∈ problem.rules, ∀ item ∈ rule.items, item.var < problem.nvars
  ordered : ∀ rule ∈ problem.rules, ∀ item ∈ rule.items, problem.order item.var = item.var + 1
  signed : ∀ rule ∈ problem.rules, ∀ item ∈ rule.items, item.inverse = 1 ∨ item.inverse = -1

variable {problem : SolveProblem}

/-- Whatever its sign, a literal is printed as a negative one. -/
theorem dimacsRule_eq {rule : SolveRule} {nvars : Nat}
    (inArray : ∀ item ∈ rule.items, item.var < nvars)
    (signed : ∀ item ∈ rule.items, item.inverse ≠ 0) :
    dimacsRule (arrayOrder nvars) rule =
      Dimacs.renderClause (rule.items.map negated) := by
  rw [dimacsRule, Dimacs.renderClause, List.flatMap_map]
  congr 1
  refine List.flatMap_congr fun item member => ?_
  have negative : negated item < 0 := by
    unfold negated
    omega
  have size : (negated item).natAbs = item.var + 1 := by
    unfold negated
    omega
  simp [find_arrayOrder (inArray item member), signed item member, dimacsSign,
    Dimacs.renderInt, negative, size]

theorem parse_dimacsPrint (numbered : WellNumbered problem) :
    Dimacs.parse (dimacsPrint (arrayOrder problem.nvars) problem) =
      some ⟨problem.nvars, problem.rulesCount,
        problem.rules.map fun rule => rule.items.map negated⟩ := by
  have lines : problem.rules.flatMap (dimacsRule (arrayOrder problem.nvars)) =
      (problem.rules.map fun rule =>
        rule.items.map negated).flatMap Dimacs.renderClause := by
    rw [List.flatMap_map]
    refine List.flatMap_congr fun rule member => dimacsRule_eq (numbered.inArray rule member) ?_
    intro item inRule
    rcases numbered.signed rule member item inRule with sign | sign <;> simp [sign]
  rw [dimacsPrint, lines]
  exact Dimacs.parse_render
    ⟨problem.nvars, problem.rulesCount, problem.rules.map fun rule => rule.items.map negated⟩

/-- The printed rules are the clauses of PicoSAT only where every literal is
negative. -/
theorem printed_clauses_iff (numbered : WellNumbered problem) :
    (problem.rules.map fun rule => rule.items.map negated) =
        picosatClauses problem ↔
      ∀ rule ∈ problem.rules, ∀ item ∈ rule.items, item.inverse = -1 := by
  have literal : ∀ rule ∈ problem.rules, ∀ item ∈ rule.items,
      (negated item = (problem.order item.var : Int) * item.inverse ↔ item.inverse = -1) := by
    intro rule member item inRule
    rw [numbered.ordered rule member item inRule, negated]
    rcases numbered.signed rule member item inRule with sign | sign
    · refine iff_of_false (fun same => ?_) (by rw [sign]; decide)
      rw [sign] at same
      push_cast at same
      omega
    · refine iff_of_true ?_ sign
      rw [sign]
      push_cast
      omega
  rw [picosatClauses, List.map_inj_left]
  refine forall₂_congr fun rule member => ?_
  rw [List.map_inj_left]
  exact forall₂_congr fun item inRule => literal rule member item inRule

end Printing

end Pkgng
