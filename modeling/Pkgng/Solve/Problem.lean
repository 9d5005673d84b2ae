import Pkgng.Jobs.Basic
import Pkgng.Lib.Cnf

/-!
# From jobs to a SAT problem

`pkg_solve_jobs_to_sat` and the rule generators below it.  The array
`problem->variables` starts zeroed and is filled chain by chain; a variable is
named by its index in the array.  The functions return `none` where the source
trips an assertion, follows a null pointer or returns `NULL`.
-/

set_option autoImplicit false

namespace Pkgng

open Lib

/-- `struct pkg_solve_variable`, less the links and the two flags that change
while rules are added. -/
structure SolveVariable where
  unit : Addr
  uid : Uid
  order : Nat
deriving DecidableEq, Repr

structure SolveVariables where
  vars : List (Option SolveVariable)
  links : Links := Links.empty
  variablesByUid : HashTable Uid Nat := []

structure SolveItem where
  var : Nat
  inverse : Int
deriving DecidableEq, Repr

structure SolveRule where
  reason : String
  items : List SolveItem := []
deriving DecidableEq, Repr

structure SolveProblem extends SolveVariables where
  nvars : Nat
  rules : List SolveRule := []
  rulesCount : Nat := 0
  /-- The literals passed to `picosat_assume`. -/
  assumptions : List Int := []
  topLevel : Nat → Bool := fun _ => false
  toInstall : Nat → Bool := fun _ => false

namespace SolveVariables

def unit (sv : SolveVariables) (var : Nat) : Option Addr :=
  (sv.vars.getD var none).map SolveVariable.unit

/-- `var->unit->pkg`. -/
def pkg (u : JobsUniverse) (sv : SolveVariables) (var : Nat) : Pkg :=
  match sv.unit var with
  | some item => u.pkg item
  | none => default

def order (sv : SolveVariables) (var : Nat) : Nat :=
  match sv.vars.getD var none with
  | some v => v.order
  | none => 0

/-- `LL_FOREACH` over the variables from the one given. -/
def chainFrom (sv : SolveVariables) (var : Option Nat) : List Nat :=
  sv.links.walk sv.vars.length var

/-- `pkg_solve_variable_set` and the assignment of `order`. -/
def set (sv : SolveVariables) (n : Nat) (item : Addr) (uid : Uid) : SolveVariables :=
  { sv with
    vars := sv.vars.set n (some ⟨item, uid, n + 1⟩)
    links := { sv.links with prev := Function.update sv.links.prev n n } }

end SolveVariables

/-- `pkg_solve_add_variable` from a point of its loop on; `tvar` is the first
variable of the chain once there is one. -/
def pkgSolveAddVariable (u : JobsUniverse) (nvars : Nat) :
    Option Nat → List Addr → SolveVariables × Nat → Option (SolveVariables × Nat)
  | _, [], state => some state
  | tvar, ucur :: rest, (sv, n) =>
      if n < nvars then
        let uid := (u.pkg ucur).uid
        let sv := sv.set n ucur uid
        match tvar with
        | none =>
            pkgSolveAddVariable u nvars (some n) rest
              ({ sv with variablesByUid := HashTable.add uid n sv.variablesByUid }, n + 1)
        | some head =>
            pkgSolveAddVariable u nvars (some head) rest
              ({ sv with links := sv.links.append (some head) n }, n + 1)
      else none

/-- The first loop of `pkg_solve_jobs_to_sat`: the variables, and their number. -/
def pkgSolveAddVariables (u : JobsUniverse) : Option (SolveVariables × Nat) :=
  u.items.foldlM
    (fun state entry => pkgSolveAddVariable u u.nitems none (u.chain entry.2) state)
    ({ vars := List.replicate u.nitems none }, 0)

namespace SolveRule

/-- `RULE_ITEM_PREPEND` of a new item. -/
def prepend (rule : SolveRule) (var : Nat) (inverse : Int) : SolveRule :=
  { rule with items := ⟨var, inverse⟩ :: rule.items }

end SolveRule

/-- `LL_PREPEND` of a finished rule. -/
def SolveProblem.addRule (problem : SolveProblem) (rule : SolveRule) : SolveProblem :=
  { problem with rules := rule :: problem.rules, rulesCount := problem.rulesCount + 1 }

/-- `pkg_solve_handle_provide`: the rule with one item more for each variable of
the provider's chain, and the new item count. -/
def pkgSolveHandleProvide (u : JobsUniverse) (problem : SolveProblem) (un : Option Addr)
    (rule : SolveRule) (cnt : Nat) : Option (SolveRule × Nat) := do
  let un ← un
  let first ← u.links.rewind (u.pkgs.length + 1) un
  let var := HashTable.find (u.pkg first).uid problem.variablesByUid
  let vars := problem.chainFrom var
  pure (vars.foldl (fun rule curvar => rule.prepend curvar 1) rule, cnt + vars.length)

def pkgSolveAddDependRule (problem : SolveProblem) (var : Nat) (dep : Dep) :
    Epkg × SolveProblem :=
  match HashTable.find dep.uid problem.variablesByUid with
  | none => (.finished, problem)
  | some depvar =>
      let rule := SolveRule.prepend { reason := "dependency" } var (-1)
      let rule := (problem.chainFrom (some depvar)).foldl
        (fun rule curvar => rule.prepend curvar 1) rule
      (.ok, problem.addRule rule)

/-- The `continue` statements of `pkg_solve_add_conflict_rule`. -/
def conflictSkips (type : ConflictType) (pkg curpkg : Pkg) : Bool :=
  match type with
  | .remoteLocal => if pkg.isInstalled then curpkg.isInstalled else !curpkg.isInstalled
  | .remoteRemote => pkg.isInstalled || curpkg.isInstalled
  | _ => false

def pkgSolveAddConflictRule (u : JobsUniverse) (problem : SolveProblem) (pkg : Pkg) (var : Nat)
    (conflict : Conflict) : Epkg × SolveProblem :=
  match HashTable.find conflict.uniqueid problem.variablesByUid with
  | none => (.finished, problem)
  | some confvar =>
      (.ok, (problem.chainFrom (some confvar)).foldl
        (fun problem curvar =>
          if conflictSkips conflict.type pkg (problem.pkg u curvar) then problem
          else
            let rule := SolveRule.prepend { reason := "explicit conflict" } var (-1)
            problem.addRule (rule.prepend curvar (-1)))
        problem)

def pkgSolveAddRequireRule (u : JobsUniverse) (problem : SolveProblem) (var : Nat)
    (shlib : String) : Option (Epkg × SolveProblem) :=
  match HashTable.find shlib u.provides with
  | none => some (.ok, problem)
  | some prhead => do
      let rule := SolveRule.prepend { reason := "require" } var (-1)
      let (rule, cnt) ← prhead.foldlM
        (fun state pr => pkgSolveHandleProvide u problem pr state.1 state.2) (rule, 1)
      -- A rule without any provider is dropped.
      if 1 < cnt then pure (.ok, problem.addRule rule) else pure (.ok, problem)

def pkgSolveAddUnaryRule (problem : SolveProblem) (var : Nat) (inverse : Int) : SolveProblem :=
  { problem with
    assumptions := problem.assumptions ++ [(problem.order var : Int) * inverse]
    topLevel := Function.update problem.topLevel var true
    toInstall := Function.update problem.toInstall var (decide (0 < inverse))
    rulesCount := problem.rulesCount + 1 }

/-- `pkg_solve_add_chain_rule`: the variable excludes each one after it. -/
def pkgSolveAddChainRule (problem : SolveProblem) (var : Nat) : SolveProblem :=
  (problem.chainFrom (problem.links.next var)).foldl
    (fun problem curvar =>
      let rule := SolveRule.prepend { reason := "upgrade chain" } var (-1)
      problem.addRule (rule.prepend curvar (-1)))
    problem

/-! ### The loops of `pkg_solve_process_universe_variable` -/

def addDependRules (problem : SolveProblem) (pkg : Pkg) (curVar : Nat) : SolveProblem :=
  pkg.deps.foldl (fun problem dep => (pkgSolveAddDependRule problem curVar dep).2) problem

def addConflictRules (u : JobsUniverse) (problem : SolveProblem) (pkg : Pkg) (curVar : Nat) :
    SolveProblem :=
  pkg.conflicts.foldl
    (fun problem conflict => (pkgSolveAddConflictRule u problem pkg curVar conflict).2) problem

def addRequireRules (u : JobsUniverse) (problem : SolveProblem) (pkg : Pkg) (curVar : Nat) :
    Option SolveProblem :=
  if pkg.isInstalled then some problem
  else
    pkg.shlibsRequired.foldlM
      (fun problem shlib => Prod.snd <$> pkgSolveAddRequireRule u problem curVar shlib) problem

def addRequestRules (j : Jobs) (problem : SolveProblem) (curVar : Nat) : SolveProblem :=
  let requested (units : List Addr) := (problem.unit curVar).any (· ∈ units)
  let problem' := if requested j.requestAdd then pkgSolveAddUnaryRule problem curVar 1 else problem
  if requested j.requestDelete then pkgSolveAddUnaryRule problem' curVar (-1) else problem'

/-- One turn of the outer loop; the flag is `chain_added`. -/
def processVariable (j : Jobs) (state : SolveProblem × Bool) (curVar : Nat) :
    Option (SolveProblem × Bool) := do
  let (problem, chainAdded) := state
  let pkg := problem.pkg j.univ curVar
  let problem := addDependRules problem pkg curVar
  let problem := addConflictRules j.univ problem pkg curVar
  let problem ← addRequireRules j.univ problem pkg curVar
  let problem := addRequestRules j problem curVar
  if !chainAdded && (problem.links.next curVar).isSome then
    pure (pkgSolveAddChainRule problem curVar, true)
  else pure (problem, chainAdded)

def pkgSolveProcessUniverseVariable (j : Jobs) (problem : SolveProblem) (var : Nat) :
    Option SolveProblem :=
  Prod.fst <$> (problem.chainFrom (some var)).foldlM (processVariable j) (problem, false)

def pkgSolveJobsToSat (j : Jobs) : Option SolveProblem := do
  let (sv, _) ← pkgSolveAddVariables j.univ
  j.univ.items.foldlM
    (fun problem entry => do
      let var ← HashTable.find (j.pkg entry.2).uid problem.variablesByUid
      pkgSolveProcessUniverseVariable j problem var)
    { sv with nvars := j.univ.nitems }

/-! ## The formula of a problem -/

def SolveItem.literal (item : SolveItem) : Literal Nat :=
  ⟨item.var, decide (0 < item.inverse)⟩

def SolveRule.clause (rule : SolveRule) : Clause Nat := rule.items.map SolveItem.literal

/-- The assignment satisfies every clause built. -/
def SolveProblem.Satisfied (problem : SolveProblem) (σ : Nat → Bool) : Prop :=
  Formula.Holds σ (problem.rules.map SolveRule.clause)

/-- A true variable belongs to the item. -/
def SolveVariables.Selected (sv : SolveVariables) (σ : Nat → Bool) (item : Addr) : Prop :=
  ∃ var, sv.unit var = some item ∧ σ var = true

end Pkgng
