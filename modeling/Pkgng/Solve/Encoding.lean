import Pkgng.Solve.Rules

/-!
# The meaning of the clauses

The clauses of `pkg_solve_jobs_to_sat` are satisfied exactly by the selections
of universe items that are `Admissible`: a statement about packages and chains,
without variables, rules or literals.
-/

set_option autoImplicit false

namespace Pkgng

open Lib

/-- What the clauses ask of a selection of items.  Of a chain, only the pairs
with its first item are excluded. -/
structure JobsUniverse.Admissible (u : JobsUniverse) (selected : Addr → Bool) : Prop where
  depends : ∀ item ∈ u.units, selected item = true → ∀ dep ∈ (u.pkg item).deps, ∀ head,
    u.find dep.uid = some head → ∃ other ∈ u.chain head, selected other = true
  conflicts : ∀ item ∈ u.units, selected item = true → ∀ conflict ∈ (u.pkg item).conflicts,
    ∀ head, u.find conflict.uniqueid = some head → ∀ other ∈ u.chain head,
      conflict.type.Covers (u.pkg item) (u.pkg other) → selected other = false
  requires : ∀ item ∈ u.units, selected item = true → (u.pkg item).isInstalled = false →
    ∀ shlib ∈ (u.pkg item).shlibsRequired, ∀ providers,
      HashTable.find shlib u.provides = some providers → providers ≠ [] →
        ∃ other, u.IsProvider providers other ∧ selected other = true
  firstAlone : ∀ entry ∈ u.items, selected entry.2 = true →
    ∀ other ∈ (u.chain entry.2).tail, selected other = false

/-- Admissibility by evaluation, for packages that require no library. -/
theorem JobsUniverse.admissible_of_chains {u : JobsUniverse} {selected : Addr → Bool}
    (depends : ∀ item ∈ u.units, selected item = true → ∀ dep ∈ (u.pkg item).deps,
      u.find dep.uid = none ∨ ∃ other ∈ u.chainOf dep.uid, selected other = true)
    (conflicts : ∀ item ∈ u.units, selected item = true → ∀ conflict ∈ (u.pkg item).conflicts,
      ∀ other ∈ u.chainOf conflict.uniqueid, selected other = true →
        conflictSkips conflict.type (u.pkg item) (u.pkg other) = true)
    (plain : ∀ item ∈ u.units, (u.pkg item).shlibsRequired = [])
    (firstAlone : ∀ entry ∈ u.items, selected entry.2 = true →
      ∀ other ∈ (u.chain entry.2).tail, selected other = false) : u.Admissible selected where
  depends := by
    intro item reachable chosen dep member head found
    rcases depends item reachable chosen dep member with absent | present
    · rw [absent] at found
      cases found
    · simpa only [chainOf, found] using present
  conflicts := by
    intro item reachable chosen conflict member head found other inChain covers
    by_contra chosenOther
    have skips := conflicts item reachable chosen conflict member other
      (by simpa only [chainOf, found] using inChain) (by simpa using chosenOther)
    rw [conflictSkips_eq_false_iff.mpr covers] at skips
    cases skips
  requires := by
    intro item reachable _ _ shlib member
    rw [plain item reachable] at member
    cases member
  firstAlone := firstAlone

/-- Only the choice among the reachable items matters. -/
theorem JobsUniverse.admissible_congr {u : JobsUniverse} (inv : u.Chained)
    {selected selected' : Addr → Bool}
    (agree : ∀ item ∈ u.units, selected' item = selected item) :
    u.Admissible selected' ↔ u.Admissible selected := by
  have transfer : ∀ {selected selected' : Addr → Bool},
      (∀ item ∈ u.units, selected' item = selected item) →
        u.Admissible selected → u.Admissible selected' := by
    intro selected selected' agree admissible
    have inChainOf : ∀ {uid head item}, u.find uid = some head → item ∈ u.chain head →
        item ∈ u.units := fun found inChain =>
      mem_units.mpr ⟨_, (find_eq_some_iff inv).mp found, inChain⟩
    refine ⟨fun item reachable chosen dep member head found => ?_,
      fun item reachable chosen conflict member head found other inChain covers => ?_,
      fun item reachable chosen remote shlib member providers found recorded => ?_,
      fun entry member chosen other inTail => ?_⟩
    · rw [agree item reachable] at chosen
      obtain ⟨other, inChain, chosenOther⟩ :=
        admissible.depends item reachable chosen dep member head found
      exact ⟨other, inChain, (agree other (inChainOf found inChain)).trans chosenOther⟩
    · rw [agree item reachable] at chosen
      exact (agree other (inChainOf found inChain)).trans (admissible.conflicts item reachable
        chosen conflict member head found other inChain covers)
    · rw [agree item reachable] at chosen
      obtain ⟨other, provides, chosenOther⟩ := admissible.requires item reachable chosen remote
        shlib member providers found recorded
      have reachableOther : other ∈ u.units := by
        obtain ⟨_, _, entry, member, _, inChain⟩ := provides
        exact mem_units.mpr ⟨entry, member, inChain⟩
      exact ⟨other, provides, (agree other reachableOther).trans chosenOther⟩
    · have headIn := mem_units.mpr ⟨entry, member, head_mem inv member⟩
      have otherIn := mem_units.mpr ⟨entry, member, List.mem_of_mem_tail inTail⟩
      rw [agree _ headIn] at chosen
      exact (agree other otherIn).trans (admissible.firstAlone entry member chosen other inTail)
  exact ⟨transfer fun item reachable => (agree item reachable).symm, transfer agree⟩

/-- What the solver may rely on: well formed chains that `nitems` has room for,
and recorded providers that are items of the universe. -/
structure JobsUniverse.Solvable (u : JobsUniverse) : Prop extends u.Chained where
  room : u.units.length ≤ u.nitems
  recorded : ∀ entry ∈ u.provides, ∀ pr ∈ entry.2, ∃ un ∈ u.units, pr = some un

theorem JobsUniverse.RepInv.solvable {u : JobsUniverse} (inv : u.RepInv)
    (recorded : ∀ entry ∈ u.provides, ∀ pr ∈ entry.2, ∃ un ∈ u.units, pr = some un) :
    u.Solvable :=
  { inv.toChained with
    room := Nat.le_of_eq inv.counted.symm
    recorded := recorded }

/-- The condition that one variable's own rules put on an assignment. -/
structure VariableMeets (u : JobsUniverse) (sv : SolveVariables) (pkg : Pkg) (var : Nat)
    (σ : Nat → Bool) : Prop where
  depends : ∀ dep ∈ pkg.deps, ∀ depvar,
    HashTable.find dep.uid sv.variablesByUid = some depvar →
      σ var = true → ∃ b ∈ sv.chainFrom (some depvar), σ b = true
  conflicts : ∀ conflict ∈ pkg.conflicts, ∀ confvar,
    HashTable.find conflict.uniqueid sv.variablesByUid = some confvar →
      ∀ curvar ∈ sv.chainFrom (some confvar),
        conflict.type.Covers pkg (sv.pkg u curvar) → ¬ (σ var = true ∧ σ curvar = true)
  requires : pkg.isInstalled = false → ∀ shlib ∈ pkg.shlibsRequired, ∀ providers,
    HashTable.find shlib u.provides = some providers → providers ≠ [] →
      σ var = true → ∃ item, u.IsProvider providers item ∧ σ (u.varOf item) = true

section Process

variable {j : Jobs} {sv : SolveVariables} {problem : SolveProblem}

theorem addDependRules_adds (before : problem.toSolveVariables = sv) (pkg : Pkg) (var : Nat) :
    Adds sv problem (addDependRules problem pkg var) fun σ => ∀ dep ∈ pkg.deps, ∀ depvar,
      HashTable.find dep.uid sv.variablesByUid = some depvar →
        σ var = true → ∃ b ∈ sv.chainFrom (some depvar), σ b = true :=
  Adds.foldl before fun dep _ _ same => pkgSolveAddDependRule_adds same var dep

theorem addConflictRules_adds (u : JobsUniverse) (before : problem.toSolveVariables = sv)
    (pkg : Pkg) (var : Nat) :
    Adds sv problem (addConflictRules u problem pkg var) fun σ => ∀ conflict ∈ pkg.conflicts,
      ∀ confvar, HashTable.find conflict.uniqueid sv.variablesByUid = some confvar →
        ∀ curvar ∈ sv.chainFrom (some confvar),
          conflict.type.Covers pkg (sv.pkg u curvar) → ¬ (σ var = true ∧ σ curvar = true) :=
  Adds.foldl before fun conflict _ _ same => pkgSolveAddConflictRule_adds same pkg var conflict

theorem addRequireRules_adds (before : problem.toSolveVariables = sv) (ready : j.univ.Solvable)
    (mirrors : Mirrors j.univ sv) (pkg : Pkg) (var : Nat) :
    ∃ last, addRequireRules j.univ problem pkg var = some last ∧
      Adds sv problem last fun σ => pkg.isInstalled = false → ∀ shlib ∈ pkg.shlibsRequired,
        ∀ providers, HashTable.find shlib j.univ.provides = some providers → providers ≠ [] →
          σ var = true →
            ∃ item, j.univ.IsProvider providers item ∧ σ (j.univ.varOf item) = true := by
  unfold addRequireRules
  cases installed : pkg.isInstalled with
  | true => exact ⟨problem, rfl, (Adds.refl before).congr fun σ => by simp⟩
  | false =>
      rw [if_neg Bool.false_ne_true]
      have step : ∀ shlib ∈ pkg.shlibsRequired, ∀ other : SolveProblem,
          other.toSolveVariables = sv → ∃ next,
            Prod.snd <$> pkgSolveAddRequireRule j.univ other var shlib = some next ∧
              Adds sv other next fun σ => ∀ providers,
                HashTable.find shlib j.univ.provides = some providers → providers ≠ [] →
                  σ var = true →
                    ∃ item, j.univ.IsProvider providers item ∧ σ (j.univ.varOf item) = true := by
        intro shlib _ other same
        obtain ⟨code, next, runs, adds⟩ := pkgSolveAddRequireRule_adds same ready.toChained
          mirrors ready.recorded var shlib
        exact ⟨next, by rw [runs]; rfl, adds⟩
      obtain ⟨last, runs, adds⟩ := Adds.foldlM before step
      exact ⟨last, runs, adds.congr fun σ => by simp⟩

theorem addRequestRules_adds (before : problem.toSolveVariables = sv) (var : Nat) :
    Adds sv problem (addRequestRules j problem var) fun _ => True := by
  have install : Adds sv problem (if (problem.unit var).any (· ∈ j.requestAdd) then
      pkgSolveAddUnaryRule problem var 1 else problem) fun _ => True := by
    split
    · exact pkgSolveAddUnaryRule_adds before var 1
    · exact Adds.refl before
  unfold addRequestRules
  dsimp only
  split
  · exact (install.trans (pkgSolveAddUnaryRule_adds install.after var (-1))).congr
      fun σ => by simp
  · exact install

/-- One variable: its own rules, and the chain rule if it is the first with a
successor. -/
theorem processVariable_adds (before : problem.toSolveVariables = sv) (ready : j.univ.Solvable)
    (mirrors : Mirrors j.univ sv) (chainAdded : Bool) (var : Nat) :
    ∃ last, processVariable j (problem, chainAdded) var =
        some (last, chainAdded || (sv.links.next var).isSome) ∧
      Adds sv problem last fun σ => VariableMeets j.univ sv (sv.pkg j.univ var) var σ ∧
        (chainAdded = false → ∀ curvar ∈ sv.chainFrom (sv.links.next var),
          ¬ (σ var = true ∧ σ curvar = true)) := by
  have pkgEq : problem.pkg j.univ var = sv.pkg j.univ var := by rw [before]
  have depends := addDependRules_adds before (sv.pkg j.univ var) var
  have conflicts := addConflictRules_adds j.univ depends.after (sv.pkg j.univ var) var
  obtain ⟨required, runs, requires⟩ :=
    addRequireRules_adds conflicts.after ready mirrors (sv.pkg j.univ var) var
  have requests : Adds sv required (addRequestRules j required var) fun _ => True :=
    addRequestRules_adds requires.after var
  have own : Adds sv problem (addRequestRules j required var) fun σ =>
      VariableMeets j.univ sv (sv.pkg j.univ var) var σ :=
    (((depends.trans conflicts).trans requires).trans requests).congr fun σ =>
      ⟨fun ⟨⟨⟨d, c⟩, r⟩, _⟩ => ⟨d, c, r⟩, fun meets =>
        ⟨⟨⟨meets.depends, meets.conflicts⟩, meets.requires⟩, trivial⟩⟩
  have nextEq : (addRequestRules j required var).links.next var = sv.links.next var := by
    rw [requests.after]
  simp only [processVariable, pkgEq, runs, Option.bind_eq_bind, Option.bind_some, nextEq]
  cases chainAdded with
  | true => exact ⟨_, rfl, own.congr fun σ => by simp⟩
  | false =>
      cases following : sv.links.next var with
      | none =>
          refine ⟨_, rfl, own.congr fun σ => ?_⟩
          have noneLeft : sv.chainFrom none = [] := by
            unfold SolveVariables.chainFrom
            cases sv.vars.length <;> rfl
          simp [noneLeft]
      | some next =>
          have chain := pkgSolveAddChainRule_adds requests.after var
          rw [following] at chain
          exact ⟨_, rfl, (own.trans chain).congr fun σ => by simp⟩

/-- The variables after the one that added the chain rule. -/
theorem processVariables_rest (ready : j.univ.Solvable) (mirrors : Mirrors j.univ sv) :
    ∀ (vars : List Nat) {problem : SolveProblem}, problem.toSolveVariables = sv →
      ∃ last, vars.foldlM (processVariable j) (problem, true) = some (last, true) ∧
        Adds sv problem last fun σ =>
          ∀ var ∈ vars, VariableMeets j.univ sv (sv.pkg j.univ var) var σ
  | [], problem, before => ⟨problem, rfl, (Adds.refl before).congr fun σ => by simp⟩
  | var :: rest, problem, before => by
      obtain ⟨next, runs, first⟩ := processVariable_adds before ready mirrors true var
      obtain ⟨last, runsRest, adds⟩ := processVariables_rest ready mirrors rest first.after
      refine ⟨last, ?_, (first.trans adds).congr fun σ => by simp⟩
      rw [List.foldlM_cons, runs]
      exact runsRest

/-- A whole chain: the rules of each variable, and the exclusion of the pairs
with the first one. -/
theorem pkgSolveProcessUniverseVariable_adds (before : problem.toSolveVariables = sv)
    (ready : j.univ.Solvable) (mirrors : Mirrors j.univ sv) {entry : Uid × Addr}
    (member : entry ∈ j.univ.items) :
    ∃ last, pkgSolveProcessUniverseVariable j problem (j.univ.varOf entry.2) = some last ∧
      Adds sv problem last fun σ =>
        (∀ item ∈ j.univ.chain entry.2,
          VariableMeets j.univ sv (j.univ.pkg item) (j.univ.varOf item) σ) ∧
        ∀ other ∈ (j.univ.chain entry.2).tail,
          ¬ (σ (j.univ.varOf entry.2) = true ∧ σ (j.univ.varOf other) = true) := by
  have chainVars := mirrors.chainFrom_head ready.toChained member
  have reachable : ∀ item ∈ j.univ.chain entry.2, item ∈ j.univ.units := fun item inChain =>
    JobsUniverse.mem_units.mpr ⟨entry, member, inChain⟩
  have headed := ready.headed entry member
  unfold pkgSolveProcessUniverseVariable
  rw [before, chainVars]
  cases spelled : j.univ.chain entry.2 with
  | nil => simp [spelled] at headed
  | cons head rest =>
      rw [spelled] at headed reachable
      cases headed
      have headPkg := mirrors.pkg_varOf (reachable entry.2 (List.mem_cons_self ..))
      obtain ⟨next, runs, first⟩ :=
        processVariable_adds before ready mirrors false (j.univ.varOf entry.2)
      rw [headPkg, mirrors.chainFrom_next member spelled] at first
      rw [mirrors.next_isSome member spelled, Bool.false_or] at runs
      rw [List.map_cons, List.foldlM_cons, runs]
      cases rest with
      | nil => exact ⟨next, rfl, first.congr fun σ => by simp⟩
      | cons following rest =>
          obtain ⟨last, runsRest, others⟩ := processVariables_rest ready mirrors
            ((following :: rest).map j.univ.varOf) first.after
          refine ⟨last, ?_, (first.trans others).congr fun σ => ?_⟩
          · change Prod.fst <$> List.foldlM (processVariable j) (next, true) _ = _
            rw [runsRest]
            rfl
          · have restMeets : (∀ var ∈ (following :: rest).map j.univ.varOf,
                VariableMeets j.univ sv (sv.pkg j.univ var) var σ) ↔
                ∀ item ∈ following :: rest,
                  VariableMeets j.univ sv (j.univ.pkg item) (j.univ.varOf item) σ := by
              rw [List.forall_mem_map]
              refine forall₂_congr fun item inRest => ?_
              rw [mirrors.pkg_varOf (reachable item (List.mem_cons_of_mem _ inRest))]
            rw [restMeets, List.tail_cons, List.forall_mem_map]
            constructor
            · rintro ⟨⟨own, alone⟩, rest⟩
              exact ⟨List.forall_mem_cons.mpr ⟨own, rest⟩, alone rfl⟩
            · rintro ⟨all, alone⟩
              obtain ⟨own, rest⟩ := List.forall_mem_cons.mp all
              exact ⟨⟨own, fun _ => alone⟩, rest⟩

end Process

/-! ## The clauses and the admissible selections -/

section Meaning

variable {j : Jobs} {sv : SolveVariables} {σ : Nat → Bool}

/-- A variable's own condition, read on the items. -/
theorem variableMeets_iff (ready : j.univ.Solvable) (mirrors : Mirrors j.univ sv) {pkg : Pkg}
    {var : Nat} :
    VariableMeets j.univ sv pkg var σ ↔
      (∀ dep ∈ pkg.deps, ∀ head, j.univ.find dep.uid = some head → σ var = true →
        ∃ other ∈ j.univ.chain head, σ (j.univ.varOf other) = true) ∧
      (∀ conflict ∈ pkg.conflicts, ∀ head, j.univ.find conflict.uniqueid = some head →
        ∀ other ∈ j.univ.chain head, conflict.type.Covers pkg (j.univ.pkg other) →
          ¬ (σ var = true ∧ σ (j.univ.varOf other) = true)) ∧
      (pkg.isInstalled = false → ∀ shlib ∈ pkg.shlibsRequired, ∀ providers,
        HashTable.find shlib j.univ.provides = some providers → providers ≠ [] →
          σ var = true →
            ∃ other, j.univ.IsProvider providers other ∧ σ (j.univ.varOf other) = true) := by
  have chainVars : ∀ {uid head}, j.univ.find uid = some head →
      sv.chainFrom (some (j.univ.varOf head)) = (j.univ.chain head).map j.univ.varOf :=
    fun found => mirrors.chainFrom_head ready.toChained
      ((JobsUniverse.find_eq_some_iff ready.toChained).mp found)
  have reachable : ∀ {uid head item}, j.univ.find uid = some head →
      item ∈ j.univ.chain head → item ∈ j.univ.units := fun found inChain =>
    JobsUniverse.mem_units.mpr
      ⟨_, (JobsUniverse.find_eq_some_iff ready.toChained).mp found, inChain⟩
  have found : ∀ {uid head}, j.univ.find uid = some head →
      HashTable.find uid sv.variablesByUid = some (j.univ.varOf head) := fun foundHead => by
    rw [mirrors.find, foundHead]
    rfl
  have found' : ∀ {uid first}, HashTable.find uid sv.variablesByUid = some first →
      ∃ head, j.univ.find uid = some head ∧ first = j.univ.varOf head := fun foundVar => by
    rw [mirrors.find, Option.map_eq_some_iff] at foundVar
    obtain ⟨head, foundHead, same⟩ := foundVar
    exact ⟨head, foundHead, same.symm⟩
  constructor
  · intro meets
    refine ⟨fun dep member head foundHead chosen => ?_,
      fun conflict member head foundHead other inChain covers => ?_, meets.requires⟩
    · obtain ⟨first, inVars, chosenFirst⟩ := meets.depends dep member _ (found foundHead) chosen
      rw [chainVars foundHead] at inVars
      obtain ⟨other, inChain, rfl⟩ := List.mem_map.mp inVars
      exact ⟨other, inChain, chosenFirst⟩
    · have atVar := meets.conflicts conflict member _ (found foundHead) (j.univ.varOf other)
        (by rw [chainVars foundHead]; exact List.mem_map_of_mem inChain)
      rw [mirrors.pkg_varOf (reachable foundHead inChain)] at atVar
      exact atVar covers
  · rintro ⟨depends, conflicts, requires⟩
    refine ⟨fun dep member first foundVar chosen => ?_,
      fun conflict member first foundVar curvar inVars covers => ?_, requires⟩
    · obtain ⟨head, foundHead, rfl⟩ := found' foundVar
      obtain ⟨other, inChain, chosenOther⟩ := depends dep member head foundHead chosen
      exact ⟨_, by rw [chainVars foundHead]; exact List.mem_map_of_mem inChain, chosenOther⟩
    · obtain ⟨head, foundHead, rfl⟩ := found' foundVar
      rw [chainVars foundHead] at inVars
      obtain ⟨other, inChain, rfl⟩ := List.mem_map.mp inVars
      rw [mirrors.pkg_varOf (reachable foundHead inChain)] at covers
      exact conflicts conflict member head foundHead other inChain covers

theorem admissible_iff (ready : j.univ.Solvable) (mirrors : Mirrors j.univ sv) :
    (∀ entry ∈ j.univ.items,
      (∀ item ∈ j.univ.chain entry.2,
        VariableMeets j.univ sv (j.univ.pkg item) (j.univ.varOf item) σ) ∧
      ∀ other ∈ (j.univ.chain entry.2).tail,
        ¬ (σ (j.univ.varOf entry.2) = true ∧ σ (j.univ.varOf other) = true)) ↔
    j.univ.Admissible fun item => σ (j.univ.varOf item) := by
  constructor
  · intro meets
    have own : ∀ item ∈ j.univ.units,
        VariableMeets j.univ sv (j.univ.pkg item) (j.univ.varOf item) σ := fun item inUnits => by
      obtain ⟨entry, member, inChain⟩ := JobsUniverse.mem_units.mp inUnits
      exact (meets entry member).1 item inChain
    refine ⟨fun item inUnits chosen dep member head found => ?_,
      fun item inUnits chosen conflict member head found other inChain covers => ?_,
      fun item inUnits chosen remote shlib member providers found some => ?_,
      fun entry member chosen other inTail => ?_⟩
    · exact ((variableMeets_iff ready mirrors).mp (own item inUnits)).1 dep member head found chosen
    · have apart := ((variableMeets_iff ready mirrors).mp (own item inUnits)).2.1 conflict member
        head found other inChain covers
      simpa [chosen] using apart
    · exact ((variableMeets_iff ready mirrors).mp (own item inUnits)).2.2 remote shlib member
        providers found some chosen
    · simpa [chosen] using (meets entry member).2 other inTail
  · intro admissible entry member
    refine ⟨fun item inChain => (variableMeets_iff ready mirrors).mpr ⟨?_, ?_, ?_⟩, ?_⟩
    · intro dep inDeps head found chosen
      exact admissible.depends item (JobsUniverse.mem_units.mpr ⟨entry, member, inChain⟩) chosen
        dep inDeps head found
    · rintro conflict inConflicts head found other inOther covers ⟨chosen, chosenOther⟩
      have apart := admissible.conflicts item
        (JobsUniverse.mem_units.mpr ⟨entry, member, inChain⟩) chosen conflict inConflicts head
        found other inOther covers
      rw [chosenOther] at apart
      cases apart
    · intro remote shlib inShlibs providers found some chosen
      exact admissible.requires item (JobsUniverse.mem_units.mpr ⟨entry, member, inChain⟩) chosen
        remote shlib inShlibs providers found some
    · rintro other inTail ⟨chosen, chosenOther⟩
      have apart := admissible.firstAlone entry member chosen other inTail
      rw [chosenOther] at apart
      cases apart

/-- `pkg_solve_jobs_to_sat` returns a problem whose clauses are satisfied by the
admissible selections and by no others. -/
theorem pkgSolveJobsToSat_spec (ready : j.univ.Solvable) :
    ∃ problem, pkgSolveJobsToSat j = some problem ∧
      Mirrors j.univ problem.toSolveVariables ∧
      ∀ σ, problem.Satisfied σ ↔ j.univ.Admissible fun item => σ (j.univ.varOf item) := by
  obtain ⟨sv, runs, mirrors, _⟩ := pkgSolveAddVariables_spec ready.toChained ready.room
  have step : ∀ entry ∈ j.univ.items, ∀ other : SolveProblem, other.toSolveVariables = sv →
      ∃ next, (do
        let var ← HashTable.find (j.pkg entry.2).uid other.variablesByUid
        pkgSolveProcessUniverseVariable j other var) = some next ∧ Adds sv other next fun σ =>
          (∀ item ∈ j.univ.chain entry.2,
            VariableMeets j.univ sv (j.univ.pkg item) (j.univ.varOf item) σ) ∧
          ∀ item ∈ (j.univ.chain entry.2).tail,
            ¬ (σ (j.univ.varOf entry.2) = true ∧ σ (j.univ.varOf item) = true) := by
    intro entry member other same
    have headUid : (j.pkg entry.2).uid = entry.1 := ready.homogeneous entry member entry.2
      (JobsUniverse.head_mem ready.toChained member)
    have foundHead := (JobsUniverse.find_eq_some_iff ready.toChained).mpr member
    have foundVar : HashTable.find entry.1 other.variablesByUid =
        some (j.univ.varOf entry.2) := by
      rw [same, mirrors.find, foundHead]
      rfl
    rw [headUid, foundVar]
    exact pkgSolveProcessUniverseVariable_adds same ready mirrors member
  have empty : ({ sv with nvars := j.univ.nitems } : SolveProblem).toSolveVariables = sv := rfl
  obtain ⟨problem, processed, adds⟩ := Adds.foldlM empty step
  refine ⟨problem, ?_, by rw [adds.after]; exact mirrors, fun σ => ?_⟩
  · rw [pkgSolveJobsToSat, runs]
    exact processed
  · rw [adds.satisfied, admissible_iff ready mirrors]
    simp [SolveProblem.Satisfied]

/-- The encoding is sound for dependencies and conflicts, and complete for the
selections that also meet the library requirements and take at most one item of
each chain. -/
theorem clauses_sound_and_complete (ready : j.univ.Solvable) :
    ∃ problem, pkgSolveJobsToSat j = some problem ∧
      (∀ σ, problem.Satisfied σ →
        (∀ item ∈ j.univ.units, problem.Selected σ item → ∀ dep ∈ (j.pkg item).deps, ∀ head,
          j.univ.find dep.uid = some head →
            ∃ other ∈ j.univ.chain head, problem.Selected σ other) ∧
        (∀ item ∈ j.univ.units, problem.Selected σ item →
          ∀ conflict ∈ (j.pkg item).conflicts, ∀ head,
            j.univ.find conflict.uniqueid = some head → ∀ other ∈ j.univ.chain head,
              conflict.type.Covers (j.pkg item) (j.pkg other) → ¬ problem.Selected σ other)) ∧
      (∀ σ,
        (∀ item ∈ j.univ.units, problem.Selected σ item → ∀ dep ∈ (j.pkg item).deps, ∀ head,
          j.univ.find dep.uid = some head →
            ∃ other ∈ j.univ.chain head, problem.Selected σ other) →
        (∀ item ∈ j.univ.units, problem.Selected σ item →
          ∀ conflict ∈ (j.pkg item).conflicts, ∀ head,
            j.univ.find conflict.uniqueid = some head → ∀ other ∈ j.univ.chain head,
              conflict.type.Covers (j.pkg item) (j.pkg other) → ¬ problem.Selected σ other) →
        (∀ item ∈ j.univ.units, problem.Selected σ item → (j.pkg item).isInstalled = false →
          ∀ shlib ∈ (j.pkg item).shlibsRequired, ∀ providers,
            HashTable.find shlib j.univ.provides = some providers → providers ≠ [] →
              ∃ other, j.univ.IsProvider providers other ∧ problem.Selected σ other) →
        (∀ entry ∈ j.univ.items, ∀ a ∈ j.univ.chain entry.2, ∀ b ∈ j.univ.chain entry.2,
          problem.Selected σ a → problem.Selected σ b → a = b) →
        problem.Satisfied σ) := by
  obtain ⟨problem, built, mirrors, satisfied⟩ := pkgSolveJobsToSat_spec ready
  have inv := ready.toChained
  have inChainOf : ∀ {uid head item}, j.univ.find uid = some head → item ∈ j.univ.chain head →
      item ∈ j.univ.units := fun found inChain =>
    JobsUniverse.mem_units.mpr ⟨_, (JobsUniverse.find_eq_some_iff inv).mp found, inChain⟩
  have selected : ∀ {σ item}, item ∈ j.univ.units →
      (problem.Selected σ item ↔ σ (j.univ.varOf item) = true) :=
    fun reachable => mirrors.selected_iff inv reachable
  refine ⟨problem, built, fun σ holds => ?_, fun σ depends conflicts requires single => ?_⟩
  · have admissible := (satisfied σ).mp holds
    refine ⟨fun item reachable chosen dep member head found => ?_,
      fun item reachable chosen conflict member head found other inChain covers chosenOther => ?_⟩
    · obtain ⟨other, inChain, chosenOther⟩ := admissible.depends item reachable
        ((selected reachable).mp chosen) dep member head found
      exact ⟨other, inChain, (selected (inChainOf found inChain)).mpr chosenOther⟩
    · have apart := admissible.conflicts item reachable ((selected reachable).mp chosen) conflict
        member head found other inChain covers
      rw [(selected (inChainOf found inChain)).mp chosenOther] at apart
      cases apart
  · rw [satisfied]
    refine ⟨fun item reachable chosen dep member head found => ?_,
      fun item reachable chosen conflict member head found other inChain covers => ?_,
      fun item reachable chosen remote shlib member providers found recorded => ?_,
      fun entry member chosen other inTail => ?_⟩
    · obtain ⟨other, inChain, chosenOther⟩ :=
        depends item reachable ((selected reachable).mpr chosen) dep member head found
      exact ⟨other, inChain, (selected (inChainOf found inChain)).mp chosenOther⟩
    · have apart := conflicts item reachable ((selected reachable).mpr chosen) conflict member head
        found other inChain covers
      rw [selected (inChainOf found inChain), Bool.not_eq_true] at apart
      exact apart
    · obtain ⟨other, provides, chosenOther⟩ := requires item reachable
        ((selected reachable).mpr chosen) remote shlib member providers found recorded
      have reachable : other ∈ j.univ.units := by
        obtain ⟨_, _, entry, member, _, inChain⟩ := provides
        exact JobsUniverse.mem_units.mpr ⟨entry, member, inChain⟩
      exact ⟨other, provides, (selected reachable).mp chosenOther⟩
    · have inChain := List.mem_of_mem_tail inTail
      have reachable := JobsUniverse.mem_units.mpr ⟨entry, member, inChain⟩
      have headIn := JobsUniverse.head_mem inv member
      have headReachable := JobsUniverse.mem_units.mpr ⟨entry, member, headIn⟩
      rw [← Bool.not_eq_true, ← selected reachable]
      intro chosenOther
      have same := single entry member entry.2 headIn other inChain
        ((selected headReachable).mpr chosen) chosenOther
      exact JobsUniverse.head_notMem_tail inv member (same ▸ inTail)

/-- An installed package, a newer version of it and the new dependency that
version brings. -/
def upgradeJobs : Jobs where
  univ := JobsUniverse.ofPackages Pkg.digest
    [{ type := .installed, uid := "app", version := "1", digest := some "d1" },
     { type := .remote, uid := "app", version := "2", digest := some "d2",
       deps := [⟨"lib", "lib", ""⟩] },
     { type := .remote, uid := "lib", version := "1", digest := some "d3" }]

theorem upgradeJobs_solvable : upgradeJobs.univ.Solvable :=
  (JobsUniverse.repInv_ofPackages _ _).solvable (by decide)

/-- In `upgradeJobs`, choosing the newer version forces the dependency. -/
theorem upgradeJobs_clauses : ∃ problem, pkgSolveJobsToSat upgradeJobs = some problem ∧
    ∀ σ, problem.Satisfied σ → problem.Selected σ 1 →
      ∃ other ∈ upgradeJobs.univ.chain 2, problem.Selected σ other := by
  obtain ⟨problem, built, sound, _⟩ := clauses_sound_and_complete upgradeJobs_solvable
  refine ⟨problem, built, fun σ holds chosen => ?_⟩
  exact (sound σ holds).1 1 (by decide) chosen ⟨"lib", "lib", ""⟩ (by decide) 2 (by decide)

end Meaning

end Pkgng
