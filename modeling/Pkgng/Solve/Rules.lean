import Pkgng.Solve.Variables

/-!
# What each rule generator adds

Every function that adds rules leaves the variables alone and restricts the
assignments by one condition.  `Adds` says so; the conditions of a loop are the
conditions of its turns.
-/

set_option autoImplicit false

namespace Pkgng

open Lib

/-- From `problem` to `problem'` the variables `sv` stay and the satisfying
assignments are cut down to those that meet the condition. -/
structure Adds (sv : SolveVariables) (problem problem' : SolveProblem)
    (condition : (Nat → Bool) → Prop) : Prop where
  before : problem.toSolveVariables = sv
  after : problem'.toSolveVariables = sv
  satisfied : ∀ σ, problem'.Satisfied σ ↔ problem.Satisfied σ ∧ condition σ

namespace Adds

variable {sv : SolveVariables} {problem problem' problem'' : SolveProblem}
  {condition condition' : (Nat → Bool) → Prop}

theorem congr (adds : Adds sv problem problem' condition)
    (same : ∀ σ, condition σ ↔ condition' σ) : Adds sv problem problem' condition' :=
  ⟨adds.before, adds.after, fun σ => by rw [adds.satisfied, same]⟩

theorem refl (before : problem.toSolveVariables = sv) :
    Adds sv problem problem fun _ => True :=
  ⟨before, before, fun σ => by simp⟩

theorem trans (first : Adds sv problem problem' condition)
    (second : Adds sv problem' problem'' condition') :
    Adds sv problem problem'' fun σ => condition σ ∧ condition' σ :=
  ⟨first.before, second.after, fun σ => by rw [second.satisfied, first.satisfied, and_assoc]⟩

theorem addRule (before : problem.toSolveVariables = sv) (rule : SolveRule) :
    Adds sv problem (problem.addRule rule) fun σ => Clause.Holds σ rule.clause :=
  ⟨before, before, fun σ => by
    rw [SolveProblem.Satisfied, SolveProblem.addRule, List.map_cons, Formula.holds_cons, and_comm]
    rfl⟩

theorem foldl {α : Type} {f : SolveProblem → α → SolveProblem}
    {conditions : α → (Nat → Bool) → Prop} : ∀ {xs : List α} {problem : SolveProblem},
    problem.toSolveVariables = sv →
    (∀ x ∈ xs, ∀ other : SolveProblem, other.toSolveVariables = sv →
      Adds sv other (f other x) (conditions x)) →
    Adds sv problem (xs.foldl f problem) fun σ => ∀ x ∈ xs, conditions x σ
  | [], problem, before, _ => (refl before).congr fun σ => by simp
  | x :: xs, problem, before, step => by
      have first := step x (List.mem_cons_self ..) problem before
      have rest := foldl first.after fun y member other same =>
        step y (List.mem_cons_of_mem _ member) other same
      exact (first.trans rest).congr fun σ => by simp

theorem foldlM {α : Type} {f : SolveProblem → α → Option SolveProblem}
    {conditions : α → (Nat → Bool) → Prop} : ∀ {xs : List α} {problem : SolveProblem},
    problem.toSolveVariables = sv →
    (∀ x ∈ xs, ∀ other : SolveProblem, other.toSolveVariables = sv →
      ∃ next, f other x = some next ∧ Adds sv other next (conditions x)) →
    ∃ last, xs.foldlM f problem = some last ∧
      Adds sv problem last fun σ => ∀ x ∈ xs, conditions x σ
  | [], problem, before, _ => ⟨problem, rfl, (refl before).congr fun σ => by simp⟩
  | x :: xs, problem, before, step => by
      obtain ⟨next, runs, first⟩ := step x (List.mem_cons_self ..) problem before
      obtain ⟨last, runsRest, rest⟩ := foldlM first.after fun y member other same =>
        step y (List.mem_cons_of_mem _ member) other same
      refine ⟨last, ?_, (first.trans rest).congr fun σ => by simp⟩
      rw [List.foldlM_cons, runs]
      exact runsRest

end Adds

section Clauses

theorem clause_prepend (rule : SolveRule) (var : Nat) (inverse : Int) :
    (rule.prepend var inverse).clause = ⟨var, decide (0 < inverse)⟩ :: rule.clause := rfl

theorem clause_foldl_prepend (vars : List Nat) (rule : SolveRule) :
    (vars.foldl (fun rule curvar => rule.prepend curvar 1) rule).clause =
      vars.reverse.map (Literal.mk · true) ++ rule.clause := by
  induction vars generalizing rule with
  | nil => rfl
  | cons var rest ih => simp [ih, clause_prepend]

/-- `¬ var ∨ B₁ ∨ … ∨ Bₙ`, built from the right. -/
theorem holds_choiceRule {σ : Nat → Bool} (reason : String) (var : Nat) (vars : List Nat) :
    Clause.Holds σ (vars.foldl (fun rule curvar => rule.prepend curvar 1)
        (SolveRule.prepend { reason := reason } var (-1))).clause ↔
      (σ var = true → ∃ b ∈ vars, σ b = true) := by
  have base : (SolveRule.prepend { reason := reason } var (-1)).clause = [⟨var, false⟩] := rfl
  rw [clause_foldl_prepend, base, Clause.holds_choice]
  simp

/-- `¬ var ∨ ¬ curvar`. -/
theorem holds_exclusionRule {σ : Nat → Bool} (reason : String) (var curvar : Nat) :
    Clause.Holds σ ((SolveRule.prepend { reason := reason } var (-1)).prepend curvar (-1)).clause ↔
      ¬ (σ var = true ∧ σ curvar = true) :=
  Clause.holds_exclusion

end Clauses

/-! ## The generators -/

/-- The pairs of packages whose joint selection a conflict of the type forbids.
The generator has no filter for `localLocal`. -/
def ConflictType.Covers : ConflictType → Pkg → Pkg → Prop
  | .all, _, _ => True
  | .localLocal, _, _ => True
  | .remoteLocal, pkg, other => pkg.isInstalled ≠ other.isInstalled
  | .remoteRemote, pkg, other => pkg.isInstalled = false ∧ other.isInstalled = false

theorem conflictSkips_eq_false_iff {type : ConflictType} {pkg other : Pkg} :
    conflictSkips type pkg other = false ↔ type.Covers pkg other := by
  cases type with
  | all => simp [conflictSkips, ConflictType.Covers]
  | localLocal => simp [conflictSkips, ConflictType.Covers]
  | remoteLocal =>
      cases mine : pkg.isInstalled <;> cases theirs : other.isInstalled <;>
        simp [conflictSkips, ConflictType.Covers, mine, theirs]
  | remoteRemote => simp [conflictSkips, ConflictType.Covers]

section Generators

variable {u : JobsUniverse} {sv : SolveVariables} {problem : SolveProblem}

theorem pkgSolveAddDependRule_adds (before : problem.toSolveVariables = sv) (var : Nat)
    (dep : Dep) :
    Adds sv problem (pkgSolveAddDependRule problem var dep).2 fun σ =>
      ∀ depvar, HashTable.find dep.uid sv.variablesByUid = some depvar →
        σ var = true → ∃ b ∈ sv.chainFrom (some depvar), σ b = true := by
  subst before
  unfold pkgSolveAddDependRule
  cases found : HashTable.find dep.uid problem.variablesByUid with
  | none => exact (Adds.refl rfl).congr fun σ => by simp
  | some depvar =>
      exact (Adds.addRule rfl _).congr fun σ => by
        rw [holds_choiceRule]
        simp

theorem pkgSolveAddConflictRule_adds (before : problem.toSolveVariables = sv) (pkg : Pkg)
    (var : Nat) (conflict : Conflict) :
    Adds sv problem (pkgSolveAddConflictRule u problem pkg var conflict).2 fun σ =>
      ∀ confvar, HashTable.find conflict.uniqueid sv.variablesByUid = some confvar →
        ∀ curvar ∈ sv.chainFrom (some confvar), conflict.type.Covers pkg (sv.pkg u curvar) →
          ¬ (σ var = true ∧ σ curvar = true) := by
  subst before
  unfold pkgSolveAddConflictRule
  cases found : HashTable.find conflict.uniqueid problem.variablesByUid with
  | none => exact (Adds.refl rfl).congr fun σ => by simp
  | some confvar =>
      refine @Adds.congr _ _ _ (fun σ => ∀ curvar ∈ problem.chainFrom (some confvar),
          conflict.type.Covers pkg (problem.pkg u curvar) →
            ¬ (σ var = true ∧ σ curvar = true)) _ ?_ fun σ => by simp
      refine Adds.foldl rfl fun curvar _ other same => ?_
      have pkgEq : other.pkg u curvar = problem.pkg u curvar := by rw [same]
      cases skips : conflictSkips conflict.type pkg (problem.pkg u curvar) with
      | true =>
          have uncovered : ¬ conflict.type.Covers pkg (problem.pkg u curvar) := by
            rw [← conflictSkips_eq_false_iff, skips]
            exact Bool.noConfusion
          rw [pkgEq, skips, if_pos rfl]
          exact (Adds.refl same).congr fun σ => by simp [uncovered]
      | false =>
          have covered := conflictSkips_eq_false_iff.mp skips
          rw [pkgEq, skips, if_neg Bool.false_ne_true]
          exact (Adds.addRule same _).congr fun σ => by
            rw [holds_exclusionRule]
            simp [covered]

theorem pkgSolveAddUnaryRule_adds (before : problem.toSolveVariables = sv) (var : Nat)
    (inverse : Int) :
    Adds sv problem (pkgSolveAddUnaryRule problem var inverse) fun _ => True :=
  ⟨before, before, fun σ => by simp [SolveProblem.Satisfied, pkgSolveAddUnaryRule]⟩

theorem pkgSolveAddChainRule_adds (before : problem.toSolveVariables = sv) (var : Nat) :
    Adds sv problem (pkgSolveAddChainRule problem var) fun σ =>
      ∀ curvar ∈ sv.chainFrom (sv.links.next var), ¬ (σ var = true ∧ σ curvar = true) := by
  subst before
  refine Adds.foldl rfl fun curvar _ other same => ?_
  exact (Adds.addRule same _).congr fun σ => holds_exclusionRule ..

/-- From any provider of a chain the rewinding loop finds the chain's head, and
with it the variables of the whole chain. -/
theorem pkgSolveHandleProvide_spec (inv : u.Chained) (mirrors : Mirrors u problem.toSolveVariables)
    {entry : Uid × Addr} (member : entry ∈ u.items) {item : Addr}
    (inChain : item ∈ u.chain entry.2) (rule : SolveRule) (cnt : Nat) :
    pkgSolveHandleProvide u problem (some item) rule cnt =
      some (((u.chain entry.2).map u.varOf).foldl (fun rule curvar => rule.prepend curvar 1) rule,
        cnt + ((u.chain entry.2).map u.varOf).length) := by
  obtain ⟨head, isHead, rewinds, _⟩ := JobsUniverse.rewinds_of_represents
    (inv.linked entry member) inChain (JobsUniverse.chain_length_le inv member)
  rw [inv.headed entry member] at isHead
  cases isHead
  have headUid : (u.pkg entry.2).uid = entry.1 :=
    inv.homogeneous entry member entry.2 (JobsUniverse.head_mem inv member)
  have foundVar : HashTable.find entry.1 problem.variablesByUid = some (u.varOf entry.2) := by
    rw [mirrors.find, (JobsUniverse.find_eq_some_iff inv).mpr member]
    rfl
  simp only [pkgSolveHandleProvide, Option.bind_eq_bind, Option.bind_some, rewinds, headUid,
    foundVar, mirrors.chainFrom_head inv member]
  rfl

/-- The variables of all recorded providers of a library. -/
def JobsUniverse.IsProvider (u : JobsUniverse) (providers : List (Option Addr)) (item : Addr) :
    Prop :=
  ∃ un, some un ∈ providers ∧ ∃ entry ∈ u.items, un ∈ u.chain entry.2 ∧ item ∈ u.chain entry.2

theorem handleProvides_spec (inv : u.Chained) (mirrors : Mirrors u problem.toSolveVariables) :
    ∀ (providers : List (Option Addr)),
      (∀ pr ∈ providers, ∃ un ∈ u.units, pr = some un) → ∀ (rule : SolveRule) (cnt : Nat),
      ∃ items : List Addr, (∀ item, item ∈ items ↔ u.IsProvider providers item) ∧
        (providers ≠ [] → items ≠ []) ∧
        providers.foldlM
            (fun state pr => pkgSolveHandleProvide u problem pr state.1 state.2) (rule, cnt) =
          some ((items.map u.varOf).foldl (fun rule curvar => rule.prepend curvar 1) rule,
            cnt + (items.map u.varOf).length)
  | [], _, rule, cnt => ⟨[], by simp [JobsUniverse.IsProvider], by simp, rfl⟩
  | pr :: rest, recorded, rule, cnt => by
      obtain ⟨un, reachable, rfl⟩ := recorded pr (List.mem_cons_self ..)
      obtain ⟨entry, member, inChain⟩ := JobsUniverse.mem_units.mp reachable
      obtain ⟨items, isItem, _, runs⟩ := handleProvides_spec inv mirrors rest
        (fun other inRest => recorded other (List.mem_cons_of_mem _ inRest))
        (((u.chain entry.2).map u.varOf).foldl (fun rule curvar => rule.prepend curvar 1) rule)
        (cnt + ((u.chain entry.2).map u.varOf).length)
      refine ⟨u.chain entry.2 ++ items, fun item => ?_, fun _ empty => ?_, ?_⟩
      · rw [List.mem_append, isItem]
        constructor
        · rintro (inHead | ⟨other, inRest, found⟩)
          · exact ⟨un, List.mem_cons_self .., entry, member, inChain, inHead⟩
          · exact ⟨other, List.mem_cons_of_mem _ inRest, found⟩
        · rintro ⟨other, inProviders, entry', member', inChain', inItem⟩
          rcases List.mem_cons.mp inProviders with same | inRest
          · cases same
            rw [JobsUniverse.entry_unique inv member' member inChain' inChain] at inItem
            exact Or.inl inItem
          · exact Or.inr ⟨other, inRest, entry', member', inChain', inItem⟩
      · rw [(List.append_eq_nil_iff.mp empty).1] at inChain
        cases inChain
      · rw [List.foldlM_cons, pkgSolveHandleProvide_spec inv mirrors member inChain]
        rw [List.map_append, List.foldl_append, List.length_append, ← Nat.add_assoc]
        exact runs

theorem pkgSolveAddRequireRule_adds (before : problem.toSolveVariables = sv) (inv : u.Chained)
    (mirrors : Mirrors u sv)
    (recorded : ∀ entry ∈ u.provides, ∀ pr ∈ entry.2, ∃ un ∈ u.units, pr = some un)
    (var : Nat) (shlib : String) :
    ∃ code last, pkgSolveAddRequireRule u problem var shlib = some (code, last) ∧
      Adds sv problem last fun σ =>
        ∀ providers, HashTable.find shlib u.provides = some providers → providers ≠ [] →
          σ var = true → ∃ item, u.IsProvider providers item ∧ σ (u.varOf item) = true := by
  subst before
  unfold pkgSolveAddRequireRule
  cases found : HashTable.find shlib u.provides with
  | none => exact ⟨_, _, rfl, (Adds.refl rfl).congr fun σ => by simp⟩
  | some providers =>
      obtain ⟨items, isItem, nonempty, runs⟩ := handleProvides_spec inv mirrors providers
        (recorded _ (HashTable.mem_of_find found))
        (SolveRule.prepend { reason := "require" } var (-1)) 1
      simp only [runs, Option.bind_eq_bind, Option.bind_some]
      by_cases unrecorded : providers = []
      · have noItems : items = [] := by
          rw [List.eq_nil_iff_forall_not_mem]
          intro item member
          obtain ⟨un, inProviders, _⟩ := (isItem item).mp member
          rw [unrecorded] at inProviders
          cases inProviders
        refine ⟨.ok, problem, by simp [noItems], (Adds.refl rfl).congr fun σ => ?_⟩
        simp [unrecorded]
      · have several : 1 < 1 + (items.map u.varOf).length := by
          rw [List.length_map]
          have := List.length_pos_of_ne_nil (nonempty unrecorded)
          omega
        refine ⟨_, _, if_pos several, (Adds.addRule rfl _).congr fun σ => ?_⟩
        rw [holds_choiceRule]
        constructor
        · rintro chooses others same _ chosen
          cases same
          obtain ⟨v, member, chosenV⟩ := chooses chosen
          obtain ⟨item, inItems, rfl⟩ := List.mem_map.mp member
          exact ⟨item, (isItem item).mp inItems, chosenV⟩
        · intro chooses chosen
          obtain ⟨item, provides, chosenItem⟩ := chooses providers rfl unrecorded chosen
          exact ⟨_, List.mem_map_of_mem ((isItem item).mpr provides), chosenItem⟩

end Generators

end Pkgng
